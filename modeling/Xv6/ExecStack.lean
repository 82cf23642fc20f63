import Mathlib.Data.List.GetD
import Xv6.ExecImage
import Xv6.FrameBuffer
import Xv6.MappedRanges
import Xv6.SpaceRelease

/-!
# The stack that `exec` builds

`exec` pushes the argument strings and the words of `ustack` on the page of the
stack, and then replaces the address space of the process.  The arguments have
to fit in that page: below it lies the page that is not accessible.
-/

namespace Xv6.Vm

open ByteFields StateTriples

/-! ## The calls of `exec` -/

/-- Where a call of `exec` does not return. -/
inductive ExecStop where
  | vm (stop : VmStop)
  /-- a page fault in `uva2ka` -/
  | pageFault

abbrev ExecM := StateT Kernel (Except ExecStop)

/-- A call of a function of `vm.c`. -/
def callVm {α : Type} (f : KernelM α) : ExecM α := fun s =>
  match f s with
  | .ok result => .ok result
  | .error stop => .error (.vm stop)

/-- A call of `copyout` while the directory `cur` is in use. -/
def callCopyout (cur pgdir : Frame) (va : Nat) (buf : List UInt8) : ExecM Int := fun s =>
  match (copyout cur pgdir s.mem va buf).result with
  | none => .error .pageFault
  | some n => .ok (n, { s with mem := (copyout cur pgdir s.mem va buf).mem })

/-- The fields of `struct proc` and of its trap frame that `exec` sets. -/
structure ExecProc where
  pgdir : Frame
  sz : Nat
  eip : Nat
  esp : Nat
  name : List UInt8

/-- `MAXARG` -/
abbrev maxarg : Nat := 32

/-- The bytes of a word. -/
def wordBytes (w : Nat) : List UInt8 :=
  [.ofNat (w % 256), .ofNat (w / 256 % 256), .ofNat (w / 65536 % 256),
    .ofNat (w / 16777216 % 256)]

/-- `(sp - (strlen(arg) + 1)) & ~3` -/
def stringAddr (sp : Nat) (arg : List UInt8) : Nat :=
  (sp + 4294967296 - (arg.length + 1) % 4294967296) % 4294967296 / 4 * 4

/-- The loop of `exec` over the arguments: the stack pointer and the pointers in
`ustack`, or nothing after `goto bad`. -/
def pushStrings (cur pgdir : Frame) :
    List (List UInt8) → Nat → Nat → List Nat → ExecM (Option (Nat × List Nat))
  | [], _, sp, ptrs => return some (sp, ptrs)
  | arg :: argv, argc, sp, ptrs => do
      if argc ≥ maxarg then return none
      let sp := stringAddr sp arg
      if (← callCopyout cur pgdir sp (arg ++ [0])) < 0 then return none
      pushStrings cur pgdir argv (argc + 1) sp (ptrs ++ [sp])

/-- `ustack`, with the pointers to the strings. -/
def ustack (sp : Nat) (ptrs : List Nat) : List Nat :=
  [0xffffffff, ptrs.length, sp - (ptrs.length + 1) * 4] ++ ptrs ++ [0]

/-- The loop of `exec` over the path: what follows the last slash. -/
def lastElement (last : List UInt8) : List UInt8 → List UInt8
  | [] => last
  | c :: s => if c = '/'.val.toUInt8 then lastElement s s else lastElement last s

/-- `exec`, given the contents of the file that `namei` finds. -/
def exec (boot : Boot) (path : List UInt8) (file : Option (List UInt8))
    (argv : List (List UInt8)) (curproc : ExecProc) : ExecM (Int × ExecProc) := do
  match file with
  | none => return (-1, curproc)
  | some file =>
      match ← callVm (loadImage boot file) with
      | none => return (-1, curproc)
      | some (pgdir, sz, entry) =>
          match ← pushStrings curproc.pgdir pgdir argv 0 sz [] with
          | none =>
              callVm (freevm boot pgdir)
              return (-1, curproc)
          | some (sp, ptrs) =>
              let bytes := (ustack sp ptrs).flatMap wordBytes
              let sp := sp - (3 + ptrs.length + 1) * 4
              if (← callCopyout curproc.pgdir pgdir sp bytes) < 0 then
                callVm (freevm boot pgdir)
                return (-1, curproc)
              callVm (freevm boot curproc.pgdir)
              return (0, ⟨pgdir, sz, entry, sp, (lastElement path path).take 15⟩)

/-! ## Pages and addresses -/

section Addresses

variable {mem : Memory} {d : Frame} {va : Nat}

theorem pteOf_page (small : va < 4294967296) :
    pteOf mem d va =
      (tableOf mem d (va / 4096 / 1024)).map fun t => entry mem t (va / 4096 % 1024) := by
  unfold pteOf
  rw [walkpgdir_page mem d small, Option.map_map]
  rfl

theorem pteOf_getD (small : va < 4294967296) :
    (pteOf mem d va).getD 0 = pte mem d (va / 4096) := by
  rw [pteOf_page small]
  unfold pte
  cases tableOf mem d (va / 4096 / 1024) <;> rfl

theorem hasTable_of_present (small : va < 4294967296)
    (here : PteP (pte mem d (va / 4096))) : HasTable mem d va := by
  by_contra missing
  have absent : (pteOf mem d va).getD 0 = _ := pteOf_getD small
  rw [pteOf_eq_none.mpr missing] at absent
  rw [← absent] at here
  cases here

theorem userMapped_iff (small : va < 4294967296) :
    UserMapped mem d va ↔ (userByte mem d va).isSome := by
  have value : (pteOf mem d va).getD 0 = _ := pteOf_getD small
  unfold userByte
  rw [← value]
  constructor
  · rintro ⟨pte, found, allowed⟩
    rw [Option.mem_def.mp found, Option.getD_some, if_pos allowed]
    rfl
  · intro read
    split at read
    · next allowed =>
      cases found : pteOf mem d va with
      | none =>
          rw [found] at allowed
          cases allowed.1
      | some pte =>
          rw [found] at allowed
          exact ⟨pte, found, allowed⟩
    · cases read

end Addresses

section Copies

variable {boot : Boot} {s s1 : Kernel} {d : Frame} {extra : Multiset Frame} {sz n : Nat}
  {image : Nat → UInt8}

theorem Building.user_lt {guard : Option Nat}
    (building : Building boot s s1 d extra sz guard image) {va : Nat}
    (inside : va / 4096 < pages sz) : va < 2147483648 := by
  have few := building.pages_le
  rw [userPages_eq] at few
  omega

/-- `copyout` to a page of the process. -/
theorem Building.copyout_page {guard : Option Nat}
    (building : Building boot s s1 d extra sz guard image) (cur : Frame) {va : Nat}
    {buf : List UInt8} (fits : va % 4096 + buf.length ≤ 4096)
    (inside : va / 4096 < pages sz) (allowed : guard ≠ some (va / 4096)) (notEmpty : buf ≠ []) :
    ∃ mem, copyout cur d s1.mem va buf = ⟨mem, some 0, false⟩ ∧
      Building boot s ⟨mem, s1.freelist⟩ d extra sz guard (overlay image va buf) := by
  have small := building.user_lt inside
  have wide : va < 4294967296 := by omega
  have mapped : UserMapped s1.mem d va := by
    rw [userMapped_iff wide, building.bytes va (by omega), if_neg allowed]
    rfl
  have whole : min (4096 - va % 4096) buf.length = buf.length := by omega
  refine ⟨_, ?_, building.write fits inside⟩
  rw [copyout_of_mapped (SameTables.refl _ _) notEmpty wide mapped, whole, List.take_length,
    List.drop_length, copyout_nil, storeBytes_page wide fits, pteOf_getD wide]

/-- `copyout` to a range that reaches the page that is not accessible fails. -/
theorem Building.copyout_stops (building : Building boot s s1 d extra sz (some n) image)
    (cur : Frame) {va : Nat} {buf : List UInt8} (inside : n < pages sz)
    (low : va / 4096 ≤ n) (high : n * 4096 < va + buf.length) (notEmpty : buf ≠ []) :
    ∃ mem, copyout cur d s1.mem va buf = ⟨mem, some (-1), false⟩ ∧
      FromFree boot s ⟨mem, s1.freelist⟩ d extra := by
  induction more : n - va / 4096 generalizing s1 va buf image with
  | zero =>
      have here : va / 4096 = n := by omega
      have small := building.user_lt (here ▸ inside)
      have present := (building.exactly n (by have := building.pages_le; omega)).mpr inside
      refine ⟨s1.mem, ?_, building.toFromFree⟩
      apply copyout_of_not_mapped (SameTables.refl _ _) notEmpty
      · exact hasTable_of_present (by omega) (here ▸ present)
      · rw [userMapped_iff (by omega), building.bytes va (by omega), if_pos (by rw [here])]
        decide
  | succ steps ih =>
      have small := building.user_lt (low.trans_lt inside)
      have wide : va < 4294967296 := by omega
      have reachable : va / 4096 < pages sz := by omega
      have mapped : UserMapped s1.mem d va := by
        have allowed : some n ≠ some (va / 4096) := by
          rintro ⟨⟩
          omega
        rw [userMapped_iff wide, building.bytes va (by omega), if_neg allowed]
        rfl
      have part : min (4096 - va % 4096) buf.length = 4096 - va % 4096 := by omega
      have length : (buf.take (4096 - va % 4096)).length = 4096 - va % 4096 := by
        rw [List.length_take]
        omega
      have fits : va % 4096 + (buf.take (4096 - va % 4096)).length ≤ 4096 := by omega
      have written := building.write fits reachable
      have next : (va / 4096 * 4096 + 4096) % 4294967296 = va / 4096 * 4096 + 4096 := by omega
      rw [copyout_of_mapped (SameTables.refl _ _) notEmpty wide mapped, part, next,
        storeBytes_page wide fits, pteOf_getD wide]
      apply ih written (by omega)
      · rw [List.length_drop]
        omega
      · apply List.ne_nil_of_length_pos
        rw [List.length_drop]
        omega
      · omega

/-- The addresses from `DEVSPACE` on are not for the process. -/
theorem Building.copyout_devspace {guard : Option Nat}
    (building : Building boot s s1 d extra sz guard image) (cur : Frame) {va : Nat}
    {buf : List UInt8} (low : 0xfe000000 ≤ va) (high : va < 4294967296) (notEmpty : buf ≠ []) :
    copyout cur d s1.mem va buf = ⟨s1.mem, some (-1), false⟩ := by
  have isHere : (⟨devspace, devspace, 0, pteW⟩ : Kmap) ∈ kmap boot := by
    simp only [kmap, List.mem_cons, List.not_mem_nil, or_false, or_true]
  have covered : (⟨devspace, devspace, 0, pteW⟩ : Kmap).Covers (va / 4096) := by
    simp only [Kmap.Covers, Kmap.first, Kmap.count, Kmap.size, devspace]
    omega
  have kernelPage : userPages ≤ va / 4096 := by
    rw [userPages_eq]
    omega
  have mapped := building.kernel.mapped _ isHere _ kernelPage covered
  have flags : rangeEntry 1040384 0xfe000000 2 (va / 4096) % 4096 = 2 ||| 1 :=
    (rangeEntry_parts (by decide) (by decide)).2
  have same : Kmap.entryOf ⟨devspace, devspace, 0, pteW⟩ (va / 4096) =
      rangeEntry 1040384 0xfe000000 2 (va / 4096) := rfl
  have value : 2 ||| 1 = 3 := rfl
  rw [← same, ← mapped, value] at flags
  apply copyout_of_not_mapped (SameTables.refl _ _) notEmpty
  · apply hasTable_of_present high
    unfold PteP
    omega
  · rw [userMapped_iff high]
    unfold userByte
    rw [if_neg]
    · decide
    · unfold PteP PteU
      omega

end Copies

/-! ## What is pushed -/

/-- The bytes lie in the image from an address on. -/
def Contains (image : Nat → UInt8) (va : Nat) (bytes : List UInt8) : Prop :=
  ∀ k < bytes.length, image (va + k) = bytes.getD k 0

/-- The bytes that the argument strings take. -/
def stringSpace (argv : List (List UInt8)) : Nat :=
  (argv.map fun arg => (arg.length + 4) / 4 * 4).sum

/-- The string lies at `p`, between the stack pointer and the top of the stack. -/
structure Pushed (image : Nat → UInt8) (sp top : Nat) (arg : List UInt8) (p : Nat) :
    Prop where
  low : sp ≤ p
  high : p + arg.length < top
  contains : Contains image p (arg ++ [0])

section Contents

variable {image image' : Nat → UInt8} {va : Nat} {bytes rest : List UInt8}

theorem contains_overlay (image : Nat → UInt8) (va : Nat) (bytes : List UInt8) :
    Contains (overlay image va bytes) va bytes := by
  intro k kLt
  rw [overlay, if_pos (by omega), Nat.add_sub_cancel_left]

theorem Contains.congr (contains : Contains image va bytes)
    (same : ∀ a, va ≤ a → a < va + bytes.length → image' a = image a) :
    Contains image' va bytes := by
  intro k kLt
  rw [same _ (Nat.le_add_right _ _) (by omega)]
  exact contains k kLt

theorem Contains.left (contains : Contains image va (bytes ++ rest)) :
    Contains image va bytes := by
  intro k kLt
  rw [contains k (by rw [List.length_append]; omega), List.getD_append _ _ _ _ kLt]

theorem Contains.right (contains : Contains image va (bytes ++ rest)) :
    Contains image (va + bytes.length) rest := by
  intro k kLt
  rw [Nat.add_assoc, contains _ (by rw [List.length_append]; omega),
    List.getD_append_right _ _ _ _ (Nat.le_add_right _ _), Nat.add_sub_cancel_left]

theorem contains_words {words : List Nat} (contains : Contains image va (words.flatMap wordBytes))
    {i : Nat} (iLt : i < words.length) :
    Contains image (va + 4 * i) (wordBytes (words.getD i 0)) := by
  induction words generalizing va i with
  | nil => cases iLt
  | cons w words ih =>
      rw [List.flatMap_cons] at contains
      cases i with
      | zero => exact contains.left
      | succ i =>
          have found := ih contains.right (Nat.lt_of_succ_lt_succ iLt)
          rw [List.getD_cons_succ, Nat.mul_succ, Nat.add_comm _ 4, ← Nat.add_assoc]
          exact found

theorem length_words (words : List Nat) :
    (words.flatMap wordBytes).length = 4 * words.length := by
  induction words with
  | nil => rfl
  | cons w words ih =>
      rw [List.flatMap_cons, List.length_append, ih, List.length_cons]
      change 4 + _ = _
      omega

end Contents

theorem stringSpace_aligned (argv : List (List UInt8)) : stringSpace argv % 4 = 0 := by
  induction argv with
  | nil => rfl
  | cons arg argv ih =>
      unfold stringSpace at ih ⊢
      rw [List.map_cons, List.sum_cons]
      omega

section Strings

variable {boot : Boot} {s s1 : Kernel} {d : Frame} {extra : Multiset Frame} {n : Nat}
  {image : Nat → UInt8}

theorem callCopyout_apply {cur : Frame} {va : Nat} {buf : List UInt8} {mem : Memory} {r : Int}
    {null : Bool} (call : copyout cur d s1.mem va buf = ⟨mem, some r, null⟩) :
    callCopyout cur d va buf s1 = .ok (r, ⟨mem, s1.freelist⟩) := by
  unfold callCopyout
  rw [call]

/-- A string is pushed on the stack, if there is room for it. -/
theorem Building.pushString
    (building : Building boot s s1 d extra ((n + 2) * 4096) (some n) image) (cur : Frame)
    {arg : List UInt8} {sp : Nat} (low : (n + 1) * 4096 ≤ sp) (high : sp ≤ (n + 2) * 4096)
    (aligned : sp % 4 = 0) (short : arg.length < 33554432) :
    ((n + 1) * 4096 + (arg.length + 4) / 4 * 4 ≤ sp ∧
        stringAddr sp arg = sp - (arg.length + 4) / 4 * 4 ∧
        ∃ mem, callCopyout cur d (stringAddr sp arg) (arg ++ [0]) s1 =
            .ok (0, ⟨mem, s1.freelist⟩) ∧
          Building boot s ⟨mem, s1.freelist⟩ d extra ((n + 2) * 4096) (some n)
            (overlay image (stringAddr sp arg) (arg ++ [0]))) ∨
      sp < (n + 1) * 4096 + (arg.length + 4) / 4 * 4 ∧
        ∃ mem, callCopyout cur d (stringAddr sp arg) (arg ++ [0]) s1 =
            .ok (-1, ⟨mem, s1.freelist⟩) ∧
          FromFree boot s ⟨mem, s1.freelist⟩ d extra := by
  have bound : (n + 2) * 4096 ≤ 2147483648 := building.bound
  have notEmpty : arg ++ [0] ≠ [] := List.append_ne_nil_of_right_ne_nil _ (List.cons_ne_nil _ _)
  have length : (arg ++ [0]).length = arg.length + 1 := List.length_append
  have whole := pages_mul (n + 2)
  by_cases room : (n + 1) * 4096 + (arg.length + 4) / 4 * 4 ≤ sp
  · have address : stringAddr sp arg = sp - (arg.length + 4) / 4 * 4 := by
      unfold stringAddr
      omega
    have page : stringAddr sp arg / 4096 = n + 1 := by omega
    have hidden : some n ≠ some (stringAddr sp arg / 4096) := by
      rw [page]
      simp
    obtain ⟨mem, call, written⟩ := building.copyout_page cur (by omega) (by omega) hidden
      notEmpty
    exact .inl ⟨room, address, mem, callCopyout_apply call, written⟩
  · refine .inr ⟨Nat.lt_of_not_le room, ?_⟩
    by_cases wraps : sp < arg.length + 1
    · have device : 0xfe000000 ≤ stringAddr sp arg ∧ stringAddr sp arg < 4294967296 := by
        unfold stringAddr
        omega
      have call := building.copyout_devspace cur device.1 device.2 notEmpty
      exact ⟨s1.mem, callCopyout_apply call, building.toFromFree⟩
    · have address : stringAddr sp arg = (sp - (arg.length + 1)) / 4 * 4 := by
        unfold stringAddr
        omega
      have low : stringAddr sp arg / 4096 ≤ n := by omega
      obtain ⟨mem, call, taken⟩ := building.copyout_stops cur (by omega) low (by omega)
        notEmpty
      exact ⟨mem, callCopyout_apply call, taken⟩

/-- The arguments are pushed, if there are not too many of them. -/
theorem Building.pushStrings
    (building : Building boot s s1 d extra ((n + 2) * 4096) (some n) image) (cur : Frame)
    (argv : List (List UInt8)) (argc sp : Nat) (ptrs : List Nat) (few : argc ≤ 32)
    (low : (n + 1) * 4096 ≤ sp) (high : sp ≤ (n + 2) * 4096) (aligned : sp % 4 = 0)
    (short : ∀ arg ∈ argv, arg.length < 33554432) :
    ((argc + argv.length ≤ 32 ∧ (n + 1) * 4096 + stringSpace argv ≤ sp) ∧
        ∃ s2 image' new, Vm.pushStrings cur d argv argc sp ptrs s1 =
            .ok (some (sp - stringSpace argv, ptrs ++ new), s2) ∧
          Building boot s s2 d extra ((n + 2) * 4096) (some n) image' ∧
          (∀ va, va < sp - stringSpace argv ∨ sp ≤ va → image' va = image va) ∧
          List.Forall₂ (Pushed image' (sp - stringSpace argv) ((n + 2) * 4096)) argv new) ∨
      ¬(argc + argv.length ≤ 32 ∧ (n + 1) * 4096 + stringSpace argv ≤ sp) ∧
        ∃ s2, Vm.pushStrings cur d argv argc sp ptrs s1 = .ok (none, s2) ∧
          FromFree boot s s2 d extra := by
  induction argv generalizing s1 image argc sp ptrs with
  | nil =>
      have empty : stringSpace [] = 0 := rfl
      rw [empty, Nat.add_zero, Nat.sub_zero]
      refine .inl ⟨⟨few, low⟩, s1, image, [], ?_, building, fun _ _ => rfl, .nil⟩
      rw [List.append_nil]
      rfl
  | cons arg argv ih =>
      have total : stringSpace (arg :: argv) = (arg.length + 4) / 4 * 4 + stringSpace argv := by
        unfold stringSpace
        rw [List.map_cons, List.sum_cons]
      rw [total, List.length_cons]
      unfold Vm.pushStrings
      by_cases full : argc ≥ 32
      · refine .inr ⟨by omega, s1, ?_, building.toFromFree⟩
        rw [if_pos full]
        rfl
      rw [if_neg full]
      rcases building.pushString cur low high aligned (short arg (List.mem_cons_self ..)) with
        ⟨room, address, mem, call, written⟩ | ⟨noRoom, mem, call, taken⟩
      · rw [bind_of_ok call, if_neg (Int.lt_irrefl 0)]
        have next : (n + 1) * 4096 ≤ stringAddr sp arg ∧ stringAddr sp arg ≤ (n + 2) * 4096 ∧
            stringAddr sp arg % 4 = 0 := by
          rw [address]
          omega
        rcases ih written (argc + 1) (stringAddr sp arg) (ptrs ++ [stringAddr sp arg])
          (Nat.lt_of_not_le full) next.1 next.2.1 next.2.2
          (fun a later => short a (List.mem_cons_of_mem _ later)) with
          ⟨fits, s2, image', new, run, built, same, contents⟩ | ⟨unfit, s2, run, taken⟩
        · refine .inl ⟨by omega, s2, image', stringAddr sp arg :: new, ?_, built, ?_, ?_⟩
          · rw [run, List.append_assoc, List.singleton_append, address, Nat.sub_sub]
          · intro va outside
            rw [same va (by omega), overlay, if_neg]
            rw [List.length_append, List.length_singleton]
            omega
          · rw [address, Nat.sub_sub] at contents
            apply List.Forall₂.cons _ contents
            refine ⟨by omega, by omega, (contains_overlay image _ _).congr ?_⟩
            intro a above _
            exact same a (.inr above)
        · exact .inr ⟨by omega, s2, run, taken⟩
      · refine .inr ⟨by omega, _, ?_, taken⟩
        rw [bind_of_ok call, if_pos (by decide)]
        rfl

end Strings

/-! ## Spaces whose frames keep their contents -/

/-- An address space only depends on its own frames. -/
theorem space_congr {mem mem' : Memory} {d : Frame} (same : ∀ f ∈ owned mem d, mem' f = mem f) :
    (∀ v, pte mem' d v = pte mem d v) ∧ owned mem' d = owned mem d ∧
      ∀ va < kernbase, userByte mem' d va = userByte mem d va := by
  have tables (i : Nat) : tableOf mem' d i = tableOf mem d i :=
    tableOf_congr (same d (mem_owned.mpr (.inl rfl))) i
  have entries (v : Nat) : pte mem' d v = pte mem d v := by
    unfold pte
    rw [tables]
    split
    · next t found =>
      unfold entry
      rw [same t (mem_owned.mpr (.inr (.inl ⟨_, found⟩)))]
    · rfl
  refine ⟨entries, owned_congr tables fun v _ => entries v, ?_⟩
  intro va user
  have size := userPages_eq
  have top : va < 2147483648 := user
  unfold userByte
  rw [entries]
  split
  · next allowed =>
    rw [same _ (mem_owned.mpr (.inr (.inr ⟨va / 4096, by omega, allowed.1, rfl⟩)))]
  · rfl

/-! ## What the program finds -/

/-- The process reads these bytes from an address on. -/
def Reads (mem : Memory) (d : Frame) (va : Nat) (bytes : List UInt8) : Prop :=
  ∀ k < bytes.length, userByte mem d (va + k) = some (bytes.getD k 0)

/-- At its stack pointer `main` finds a return address, the number of its
arguments and the address of the pointers to them. -/
structure Receives (mem : Memory) (d : Frame) (esp : Nat) (argv : List (List UInt8)) :
    Prop where
  pc : Reads mem d esp (wordBytes 0xffffffff)
  argc : Reads mem d (esp + 4) (wordBytes argv.length)
  vector : Reads mem d (esp + 8) (wordBytes (esp + 12))
  strings : ∀ i < argv.length, ∃ p, Reads mem d (esp + 12 + 4 * i) (wordBytes p) ∧
    Reads mem d p (argv.getD i [] ++ [0])
  last : Reads mem d (esp + 12 + 4 * argv.length) (wordBytes 0)

/-- The arguments fit in the page of the stack. -/
def ArgumentsFit (argv : List (List UInt8)) : Prop :=
  argv.length ≤ 32 ∧ stringSpace argv + 4 * (argv.length + 4) ≤ 4096

/-- After a refusal the process is as before. -/
structure Refused (boot : Boot) (s s' : Kernel) (extra : Multiset Frame) (old : ExecProc) :
    Prop where
  wf : Wf boot s' old.pgdir extra
  frames : SameFrames s s'
  memory : ∀ va < kernbase, userByte s'.mem old.pgdir va = userByte s.mem old.pgdir va

/-- The process has the new image, its arguments, and the frames that it needs;
the others are free. -/
structure Executed (boot : Boot) (s s' : Kernel) (extra : Multiset Frame)
    (path file : List UInt8) (argv : List (List UInt8)) (old new : ExecProc) : Prop where
  wf : Wf boot s' new.pgdir extra
  total : total s' new.pgdir = total s old.pgdir
  others : ∀ f ∉ Vm.total s old.pgdir, s'.mem f = s.mem f
  sz : new.sz = (imagePages file + 2) * 4096
  below : new.sz < kernbase
  eip : new.eip = (elfhdr (file.take 52)).entry
  name : new.name = (lastElement path path).take 15
  fits : ∀ ph ∈ programSegments file, Fits file (covering 0 (programSegments file)) ph
  exactly : PresentBelow s'.mem new.pgdir (imagePages file + 2)
  segments : ∀ va < imagePages file * 4096, userByte s'.mem new.pgdir va =
    some (layout file (fun _ => 0) (programSegments file) va)
  guard : ∀ va, va / 4096 = imagePages file → userByte s'.mem new.pgdir va = none
  receives : Receives s'.mem new.pgdir new.esp argv
  kernel : KernelPart boot s'.mem new.pgdir

theorem lastElement_spec (path : List UInt8) :
    ∃ dir, path = dir ++ lastElement path path ∧ '/'.val.toUInt8 ∉ lastElement path path ∧
      (dir = [] ∨ dir.getLast? = some '/'.val.toUInt8) := by
  have scanned : ∀ rest dir last : List UInt8, path = dir ++ last ++ rest →
      '/'.val.toUInt8 ∉ last → (dir = [] ∨ dir.getLast? = some '/'.val.toUInt8) →
      ∃ dir, path = dir ++ lastElement (last ++ rest) rest ∧
        '/'.val.toUInt8 ∉ lastElement (last ++ rest) rest ∧
        (dir = [] ∨ dir.getLast? = some '/'.val.toUInt8) := by
    intro rest
    induction rest with
    | nil =>
        intro dir last parts notHere before
        rw [List.append_nil] at parts ⊢
        exact ⟨dir, parts, notHere, before⟩
    | cons c rest ih =>
        intro dir last parts notHere before
        unfold lastElement
        split
        · next slash =>
          subst slash
          apply ih (dir ++ last ++ ['/'.val.toUInt8]) []
          · rw [parts]
            simp
          · exact List.not_mem_nil
          · right
            simp
        · next other =>
          have moved := ih dir (last ++ [c]) (by rw [parts]; simp) (by
            rw [List.mem_append, List.mem_singleton]
            rintro (there | here)
            · exact notHere there
            · exact other here.symm) before
          rw [List.append_assoc] at moved
          exact moved
  have result := scanned path [] [] rfl List.not_mem_nil (.inl rfl)
  exact result

section Exec

variable {boot : Boot} {s s1 s2 : Kernel} {d : Frame} {extra : Multiset Frame} {n sz : Nat}
  {guard : Option Nat} {image : Nat → UInt8}

theorem callVm_ok {α : Type} {f : KernelM α} {result : α} (run : f s1 = .ok (result, s2)) :
    callVm f s1 = .ok (result, s2) := by
  unfold callVm
  rw [run]

/-- The frames that were free do not belong to a process. -/
theorem Wf.sameSpace {old : Frame} (wf : Wf boot s old extra)
    (others : ∀ f ∉ s.freelist, s1.mem f = s.mem f) :
    ∀ f ∈ owned s.mem old, s1.mem f = s.mem f := by
  intro f isOwned
  apply others
  intro isFree
  exact wf.free_notOwned isFree isOwned

theorem Wf.freeWf {old : Frame} (wf : Wf boot s old extra) :
    FreeWf boot s (extra + owned s.mem old) := by
  have same : (s.freelist : Multiset Frame) + (extra + owned s.mem old) =
      total s old + extra := by
    unfold total
    ac_rfl
  constructor
  · rw [same]
    exact wf.nodup
  · rw [same]
    exact wf.managed

/-- After a refusal. -/
theorem Wf.refused {old : ExecProc} (wf : Wf boot s old.pgdir extra) (same : SameFrames s s1) :
    Refused boot s s1 extra old := by
  obtain ⟨-, frames, memory⟩ := space_congr (wf.sameSpace same.others)
  refine ⟨wf.congr ?_, same, memory⟩
  unfold total
  rw [frames, same.free]

/-- The old address space is given up. -/
theorem Building.commit {old : Frame} (wf : Wf boot s old extra)
    (building : Building boot s s1 d (extra + owned s.mem old) sz guard image) :
    ∃ s2, Vm.freevm boot old s1 = .ok (⟨⟩, s2) ∧ Wf boot s2 d extra ∧
      total s2 d = total s old ∧ (∀ f ∉ total s old, s2.mem f = s.mem f) ∧
      ∀ f ∈ owned s1.mem d, s2.mem f = s1.mem f := by
  obtain ⟨-, oldFrames, -⟩ := space_congr (wf.sameSpace building.others)
  have sum : total s1 old + (extra + owned s1.mem d) =
      total s1 d + (extra + owned s.mem old) := by
    unfold total
    rw [oldFrames]
    ac_rfl
  have other : Wf boot s1 old (extra + owned s1.mem d) :=
    ⟨sum ▸ building.wf.nodup, sum ▸ building.wf.managed⟩
  obtain ⟨s2, run, released⟩ := freevm_spec other
  have apart : ∀ f ∈ owned s1.mem d, f ∉ total s1 old := by
    intro f isOwned isTotal
    have nodup := building.wf.nodup
    rw [← sum] at nodup
    exact Multiset.disjoint_left.mp (Multiset.nodup_add.mp nodup).2.2 isTotal
      (Multiset.mem_add.mpr (.inr isOwned))
  have kept : ∀ f ∈ owned s1.mem d, s2.mem f = s1.mem f := by
    intro f isOwned
    exact released.others f (apart f isOwned)
  have totals : total s2 d = total s old := by
    have all := building.total
    unfold total at all ⊢
    rw [(space_congr kept).2.1, released.free, ← all]
    unfold total
    rw [oldFrames]
    ac_rfl
  have whole : Wf boot s2 d extra := by
    constructor
    · rw [totals]
      exact wf.nodup
    · rw [totals]
      exact wf.managed
  refine ⟨s2, run, whole, totals, ?_, kept⟩
  intro f outside
  rw [released.others f, building.others f]
  · intro isFree
    exact outside (mem_total.mpr (.inr isFree))
  · intro isTotal
    apply outside
    rw [mem_total, oldFrames] at isTotal
    rcases isTotal with isOwned | isFree
    · exact mem_total.mpr (.inl isOwned)
    · exact mem_total.mpr (.inr (building.mem_total.mp (mem_total.mpr (.inr isFree))))

/-- The words of `ustack` on the page of the stack. -/
theorem Building.pushUstack
    (building : Building boot s s1 d extra ((n + 2) * 4096) (some n) image) (cur : Frame)
    {sp : Nat} {ptrs : List Nat} (low : (n + 1) * 4096 ≤ sp) (high : sp ≤ (n + 2) * 4096)
    (aligned : sp % 4 = 0) (few : ptrs.length ≤ 32) :
    ((n + 1) * 4096 + 4 * (ptrs.length + 4) ≤ sp ∧
        ∃ mem, callCopyout cur d (sp - (3 + ptrs.length + 1) * 4)
            ((ustack sp ptrs).flatMap wordBytes) s1 = .ok (0, ⟨mem, s1.freelist⟩) ∧
          Building boot s ⟨mem, s1.freelist⟩ d extra ((n + 2) * 4096) (some n)
            (overlay image (sp - (3 + ptrs.length + 1) * 4)
              ((ustack sp ptrs).flatMap wordBytes))) ∨
      sp < (n + 1) * 4096 + 4 * (ptrs.length + 4) ∧
        ∃ mem, callCopyout cur d (sp - (3 + ptrs.length + 1) * 4)
            ((ustack sp ptrs).flatMap wordBytes) s1 = .ok (-1, ⟨mem, s1.freelist⟩) ∧
          FromFree boot s ⟨mem, s1.freelist⟩ d extra := by
  have words : (ustack sp ptrs).length = ptrs.length + 4 := by
    unfold ustack
    simp only [List.length_append, List.length_cons, List.length_nil]
    omega
  have length := length_words (ustack sp ptrs)
  rw [words] at length
  have notEmpty : (ustack sp ptrs).flatMap wordBytes ≠ [] := by
    apply List.ne_nil_of_length_pos
    omega
  have whole := pages_mul (n + 2)
  generalize address : sp - (3 + ptrs.length + 1) * 4 = esp
  by_cases room : (n + 1) * 4096 + 4 * (ptrs.length + 4) ≤ sp
  · have page : esp / 4096 = n + 1 := by omega
    have hidden : some n ≠ some (esp / 4096) := by
      rw [page]
      simp
    obtain ⟨mem, call, written⟩ := building.copyout_page cur (by omega) (by omega) hidden
      notEmpty
    exact .inl ⟨room, mem, callCopyout_apply call, written⟩
  · obtain ⟨mem, call, taken⟩ := building.copyout_stops cur (by omega)
      (by omega : esp / 4096 ≤ n) (by omega) notEmpty
    exact .inr ⟨Nat.lt_of_not_le room, mem, callCopyout_apply call, taken⟩

/-- The stack of the new program. -/
theorem receives_of_bytes {mem : Memory} {argv : List (List UInt8)} {ptrs : List Nat} {sp : Nat}
    (bytes : ∀ va < (n + 2) * 4096, userByte mem d va =
      if some n = some (va / 4096) then none
      else some (overlay image (sp - (3 + ptrs.length + 1) * 4)
        ((ustack sp ptrs).flatMap wordBytes) va))
    (room : (n + 1) * 4096 + 4 * (ptrs.length + 4) ≤ sp) (high : sp ≤ (n + 2) * 4096)
    (strings : List.Forall₂ (Pushed image sp ((n + 2) * 4096)) argv ptrs) :
    Receives mem d (sp - (3 + ptrs.length + 1) * 4) argv := by
  have count := strings.length_eq
  have words : (ustack sp ptrs).length = ptrs.length + 4 := by
    unfold ustack
    simp only [List.length_append, List.length_cons, List.length_nil]
    omega
  have length := length_words (ustack sp ptrs)
  rw [words] at length
  generalize address : sp - (3 + ptrs.length + 1) * 4 = esp at bytes ⊢
  have readAt {va : Nat} {word : List UInt8} (low : esp ≤ va)
      (top : va + word.length ≤ (n + 2) * 4096)
      (contains : Contains (overlay image esp ((ustack sp ptrs).flatMap wordBytes)) va word) :
      Reads mem d va word := by
    intro k kLt
    have hidden : some n ≠ some ((va + k) / 4096) := by
      rintro equal
      have here := Option.some.inj equal
      omega
    rw [bytes _ (by omega), if_neg hidden, contains k kLt]
  have wordAt (i : Nat) (iLt : i < ptrs.length + 4) :
      Reads mem d (esp + 4 * i) (wordBytes ((ustack sp ptrs).getD i 0)) := by
    have size : (wordBytes ((ustack sp ptrs).getD i 0)).length = 4 := rfl
    exact readAt (by omega) (by omega)
      (contains_words (contains_overlay image esp _) (words.symm ▸ iLt))
  have pointer (i : Nat) (iLt : i < ptrs.length) :
      (ustack sp ptrs).getD (3 + i) 0 = ptrs.getD i 0 := by
    unfold ustack
    have three : [0xffffffff, ptrs.length, sp - (ptrs.length + 1) * 4].length = 3 := rfl
    rw [List.append_assoc, List.getD_append_right _ _ _ _ (by omega), three,
      Nat.add_sub_cancel_left, List.getD_append _ _ _ _ iLt]
  constructor
  · exact wordAt 0 (by omega)
  · rw [count]
    exact wordAt 1 (by omega)
  · have third : sp - (ptrs.length + 1) * 4 = esp + 12 := by omega
    rw [← third]
    exact wordAt 2 (by omega)
  · intro i iLt
    have iLt' : i < ptrs.length := count ▸ iLt
    have pushed : Pushed image sp ((n + 2) * 4096) (argv.getD i []) (ptrs.getD i 0) := by
      rw [List.getD_eq_getElem _ _ iLt, List.getD_eq_getElem _ _ iLt']
      exact List.forall₂_iff_get.mp strings |>.2 i iLt iLt'
    have here := wordAt (3 + i) (by omega)
    rw [pointer i iLt', Nat.mul_add, ← Nat.add_assoc] at here
    refine ⟨_, here, ?_⟩
    have above := pushed.low
    have below := pushed.high
    apply readAt (by omega)
    · rw [List.length_append, List.length_singleton]
      omega
    · apply pushed.contains.congr
      intro a low _
      rw [overlay, if_neg (by omega)]
  · have final := wordAt (3 + argv.length) (by omega)
    have zero : (ustack sp ptrs).getD (3 + argv.length) 0 = 0 := by
      unfold ustack
      rw [List.getD_append_right _ _ _ _ (by simp; omega)]
      simp [count]
    rw [zero, Nat.mul_add, ← Nat.add_assoc] at final
    exact final

/-- The new image takes the place of the old one. -/
theorem Loaded.commit {old : ExecProc} {s0 : Kernel} {file : List UInt8} {entry sp : Nat}
    {argv : List (List UInt8)} {ptrs : List Nat} (wf : Wf boot s old.pgdir extra)
    (loaded : Loaded boot s s0 d (extra + owned s.mem old.pgdir) file sz entry)
    (path : List UInt8) (count : imagePages file = n)
    (final : Building boot s s1 d (extra + owned s.mem old.pgdir)
      ((n + 2) * 4096) (some n)
      (overlay image (sp - (3 + ptrs.length + 1) * 4) ((ustack sp ptrs).flatMap wordBytes)))
    (same : ∀ va < sp, image va = layout file (fun _ => 0) (programSegments file) va)
    (room : (n + 1) * 4096 + 4 * (ptrs.length + 4) ≤ sp)
    (high : sp ≤ (n + 2) * 4096)
    (strings : List.Forall₂ (Pushed image sp ((n + 2) * 4096)) argv ptrs) :
    ∃ s2, Vm.freevm boot old.pgdir s1 = .ok (⟨⟩, s2) ∧
      Executed boot s s2 extra path file argv old
        ⟨d, sz, entry, sp - (3 + ptrs.length + 1) * 4, (lastElement path path).take 15⟩ := by
  obtain ⟨s2, freed, whole, totals, others, kept⟩ := final.commit wf
  obtain ⟨entries, -, bytes⟩ := space_congr kept
  have bound : (n + 2) * 4096 ≤ 2147483648 := final.bound
  have size := loaded.size
  rw [count] at size
  have shown : ∀ va < (n + 2) * 4096, userByte s2.mem d va =
      if some n = some (va / 4096) then none
      else some (overlay image (sp - (3 + ptrs.length + 1) * 4)
        ((ustack sp ptrs).flatMap wordBytes) va) := by
    intro va vaLt
    rw [bytes va (vaLt.trans_le bound)]
    exact final.bytes va ((pages_mul _).symm ▸ vaLt)
  refine ⟨s2, freed, whole, totals, others, ?_, loaded.below, loaded.entry, rfl, loaded.fits,
    ?_, ?_, ?_,
    receives_of_bytes shown room high strings, final.kernel.congr fun u _ => entries u⟩
  · rw [count]
    exact size
  · intro v vLt
    rw [count, entries, final.exactly v vLt, pages_mul]
  · intro va inside
    rw [count] at inside
    have hidden : some n ≠ some (va / 4096) := by
      rintro equal
      have here := Option.some.inj equal
      omega
    have low : va < sp := by omega
    have inSpace : va < (n + 2) * 4096 := low.trans_le high
    rw [shown va inSpace, if_neg hidden, overlay, if_neg (by omega), same va low]
  · intro va here
    rw [count] at here
    rw [shown va (by omega), if_pos (by rw [here])]

/-- How `exec` ends. -/
theorem exec_ends (mode : VideoMode boot) (path : List UInt8) (file : Option (List UInt8))
    {argv : List (List UInt8)} {curproc : ExecProc} (wf : Wf boot s curproc.pgdir extra)
    (short : ∀ arg ∈ argv, arg.length < 33554432) :
    (∃ s', exec boot path file argv curproc s = .ok ((-1, curproc), s') ∧
        Refused boot s s' extra curproc ∧
        ∀ contents, file = some contents → ArgumentsFit argv →
          ∃ s1, loadImage boot contents s = .ok (none, s1)) ∨
      ∃ contents new s' image s1, file = some contents ∧ ArgumentsFit argv ∧
        loadImage boot contents s = .ok (some image, s1) ∧
        exec boot path file argv curproc s = .ok ((0, new), s') ∧
        Executed boot s s' extra path contents argv curproc new := by
  cases file with
  | none =>
      refine .inl ⟨s, rfl, wf.refused ⟨rfl, fun _ _ => rfl⟩, ?_⟩
      rintro contents ⟨⟩
  | some contents =>
      unfold exec
      rcases loadImage_spec mode wf.freeWf contents with
        ⟨s1, run, same⟩ | ⟨d, sz, entry, s1, run, loaded⟩
      · refine .inl ⟨s1, ?_, wf.refused same, ?_⟩
        · simp only []
          rw [bind_of_ok (callVm_ok run)]
          rfl
        · rintro other ⟨⟩ -
          exact ⟨s1, run⟩
      · simp only []
        rw [bind_of_ok (callVm_ok run)]
        simp only []
        have space := loaded.space
        generalize count : imagePages contents = n at space
        have size : sz = (n + 2) * 4096 := count ▸ loaded.size
        rw [size] at space ⊢
        have step : (n + 1) * 4096 ≤ (n + 2) * 4096 :=
          Nat.mul_le_mul_right _ (by omega)
        have even : (n + 2) * 4096 % 4 = 0 := by omega
        rcases space.pushStrings curproc.pgdir argv 0 ((n + 2) * 4096) []
          (Nat.zero_le 32) step (Nat.le_refl _) even short with
          ⟨⟨few, room⟩, s2, image, ptrs, pushed, built, same, strings⟩ | ⟨unfit, s2, failed, taken⟩
        · rw [List.nil_append] at pushed
          rw [bind_of_ok pushed]
          simp only []
          have pointers := strings.length_eq
          have aligned := stringSpace_aligned argv
          have above := Nat.le_sub_of_add_le room
          generalize top : (n + 2) * 4096 - stringSpace argv = sp
            at strings pushed same above
          have below : sp ≤ (n + 2) * 4096 := by omega
          have words : sp % 4 = 0 := by omega
          have most : ptrs.length ≤ 32 := by omega
          rcases built.pushUstack curproc.pgdir above below words most with
            ⟨fits, mem, call, final⟩ | ⟨noRoom, mem, call, taken⟩
          · have argumentsFit : ArgumentsFit argv := by
              unfold ArgumentsFit
              omega
            obtain ⟨s3, freed, executed⟩ := loaded.commit wf path count final
              (fun va vaLt => same va (.inl vaLt)) fits below strings
            refine .inr ⟨contents, _, s3, _, s1, rfl, argumentsFit, run, ?_, executed⟩
            rw [bind_of_ok call, if_neg (by decide), bind_of_ok (callVm_ok freed), size]
            rfl
          · obtain ⟨s3, freed, same⟩ := taken.freevm
            refine .inl ⟨s3, ?_, wf.refused same, ?_⟩
            · rw [bind_of_ok call, if_pos (by decide), bind_of_ok (callVm_ok freed)]
              rfl
            · rintro other ⟨⟩ argumentsFit
              unfold ArgumentsFit at argumentsFit
              omega
        · obtain ⟨s3, freed, same⟩ := taken.freevm
          refine .inl ⟨s3, ?_, wf.refused same, ?_⟩
          · rw [bind_of_ok failed]
            simp only []
            rw [bind_of_ok (callVm_ok freed)]
            rfl
          · rintro other ⟨⟩ argumentsFit
            unfold ArgumentsFit at argumentsFit
            omega

/-- `exec` returns 0 exactly when the file is found, its image can be built and the
arguments fit in the page of the stack; otherwise it returns -1 and the process
is as before. -/
theorem exec_spec (mode : VideoMode boot) (path : List UInt8) (file : Option (List UInt8))
    {argv : List (List UInt8)} {curproc : ExecProc} (wf : Wf boot s curproc.pgdir extra)
    (short : ∀ arg ∈ argv, arg.length < 33554432) :
    ∃ result new s', exec boot path file argv curproc s = .ok ((result, new), s') ∧
      (result = 0 ↔ ArgumentsFit argv ∧ ∃ contents image s1, file = some contents ∧
        loadImage boot contents s = .ok (some image, s1)) ∧
      (result ≠ 0 → result = -1 ∧ new = curproc ∧ Refused boot s s' extra curproc) ∧
      (result = 0 → ∃ contents, file = some contents ∧
        Executed boot s s' extra path contents argv curproc new) := by
  rcases exec_ends mode path file wf short with ⟨s', run, refused, cause⟩ |
    ⟨contents, new, s', image, s1, found, argumentsFit, loaded, run, executed⟩
  · refine ⟨-1, curproc, s', run, iff_of_false (by decide) ?_, fun _ => ⟨rfl, rfl, refused⟩, ?_⟩
    · rintro ⟨argumentsFit, contents, image, s1, found, loaded⟩
      obtain ⟨s2, failed⟩ := cause contents found argumentsFit
      rw [failed] at loaded
      cases loaded
    · intro impossible
      cases impossible
  · refine ⟨0, new, s', run, iff_of_true rfl ⟨argumentsFit, contents, image, s1, found, loaded⟩,
      fun failed => absurd rfl failed, fun _ => ⟨contents, found, executed⟩⟩

/-- A file that is only an ELF header, with entry point 16 and no segments. -/
def headerOnly : List UInt8 :=
  [0x7f, 0x45, 0x4c, 0x46] ++ List.replicate 20 0 ++ [16, 0, 0, 0] ++ List.replicate 24 0

theorem loadImage_headerOnly {s : Kernel} {extra : Multiset Frame}
    (wf : FreeWf smallBoot s extra) (enough : 517 ≤ s.freelist.length) :
    ∃ image s1, loadImage smallBoot headerOnly s = .ok (some image, s1) := by
  have kernel := kernelFrames_le smallBoot_mode
  rcases setupkvm_spec smallBoot_mode wf with ⟨-, d, s1, run, ready⟩ | ⟨few, -⟩
  · have building := ready.building smallBoot_mode
    have frames : growFrames s1.mem d (pages 0) (pages 8192) ≤ s1.freelist.length := by
      have bound := growFrames_le s1.mem d (pages 0) 2
      have left := ready.length
      have two : pages 8192 = pages 0 + 2 := rfl
      rw [two]
      omega
    have grown : ∃ s2, allocuvm smallBoot d 0 8192 s1 = .ok (8192, s2) ∧
        Building smallBoot s s2 d extra 8192 none fun _ => 0 := by
      rcases building.allocuvm 8192 with ⟨s2, run2, -⟩ | ⟨-, s2, run2, grown⟩
      · rcases allocuvm_spec building.wf building.exactly.vacant (Nat.zero_le 8192)
          (by decide) with ⟨-, s3, run3, -⟩ | ⟨few, -⟩
        · rw [run2] at run3
          cases run3
        · exact absurd frames (Nat.not_le.mpr few)
      · exact ⟨s2, run2, grown⟩
    obtain ⟨s2, run2, grown⟩ := grown
    obtain ⟨s3, run3, -⟩ := grown.clearpteu (v := 0) (by decide)
    have whole : (readi headerOnly 0 52).1 = 52 := by decide
    have header : elfhdr (readi headerOnly 0 52).2 = ⟨elfMagic, 16, 0, 0⟩ := rfl
    refine ⟨(d, 8192, 16), s3, ?_⟩
    unfold loadImage
    simp only [whole, header, ne_eq, not_true_eq_false, if_false, bind_of_ok run, loadSegments,
      pure_bind]
    change (allocuvm smallBoot d 0 8192 >>= _) s1 = _
    rw [bind_of_ok run2, if_neg (by decide), bind_of_ok run3]
    rfl
  · omega

/-- A process without memory calls `exec` with two arguments. -/
theorem headerOnly_exec : ∃ new s',
    exec smallBoot [47, 108, 115] (some headerOnly) [[108, 115], [46]] ⟨512, 0, 0, 0, []⟩
        (freeFrames 600) = .ok ((0, new), s') ∧
      new.sz = 8192 ∧ new.eip = 16 ∧
      Executed smallBoot (freeFrames 600) s' 0 [47, 108, 115] headerOnly [[108, 115], [46]]
        ⟨512, 0, 0, 0, []⟩ new := by
  have wf : Wf smallBoot (freeFrames 600) 512 0 := by
    have nodup : (512 :: List.range' 600 600 ++ []).Nodup := by
      rw [List.append_nil, List.nodup_cons]
      exact ⟨fun member => absurd (List.mem_range'_1.mp member).1 (by decide), List.nodup_range'⟩
    refine emptySpace_wf nodup fun f member => ?_
    rw [List.append_nil, List.mem_cons, List.mem_range'_1] at member
    rcases member with rfl | inside
    · decide
    · exact managed_of_between (by decide) inside.1 (by omega)
  obtain ⟨result, new, s', run, iff, -, executed⟩ :=
    @exec_spec smallBoot (freeFrames 600) 0 smallBoot_mode [47, 108, 115] (some headerOnly)
      [[108, 115], [46]] ⟨512, 0, 0, 0, []⟩ wf (by decide)
  have length : (freeFrames 600).freelist.length = 600 := List.length_range'
  obtain ⟨image, s1, loaded⟩ := loadImage_headerOnly wf.freeWf (by rw [length]; decide)
  obtain rfl : result = 0 := iff.mpr ⟨⟨by decide, by decide⟩, headerOnly, image, s1, rfl, loaded⟩
  obtain ⟨contents, same, executed⟩ := executed rfl
  cases same
  exact ⟨new, s', run, executed.sz, executed.eip, executed⟩

end Exec

end Xv6.Vm
