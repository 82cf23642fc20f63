import Xv6.ProcessSpaces

/-!
# From the start of the kernel to the first process

`main` puts the frames behind the kernel on the free list in two phases, with
the kernel's own directory and the stacks of the other processors between them,
and builds the first process.
-/

namespace Xv6.Vm

open ByteFields StateTriples

/-! ## The calls of `main` -/

/-- Where `main` does not return. -/
inductive StartStop where
  | vm (stop : VmStop)
  /-- a store through the null pointer -/
  | nullPointer
  /-- `switchkvm` without a directory -/
  | noDirectory
  /-- "userinit: out of memory?" -/
  | outOfMemory
  /-- "inituvm: more than a page" -/
  | moreThanAPage

abbrev StartM := StateT System (Except StartStop)

def startKernel {Result : Type} (call : KernelM Result) : StartM Result := fun s =>
  match call s.machine.kernel with
  | .ok (result, kernel) =>
      .ok (result, { s with machine := { s.machine with kernel := kernel } })
  | .error stop => .error (.vm stop)

def startMachine {Result : Type} (call : MachineM Result) : StartM Result := fun s =>
  match call s.machine with
  | .ok (result, m) => .ok (result, { s with machine := m })
  | .error stop => .error (.vm stop)

/-- The loop of `freerange`. -/
def freerangeLoop (boot : Boot) (vend : Nat) : Nat → Nat → KernelM Unit
  | 0, _ => throw .diverges
  | fuel + 1, p => do
      if (p + 4096) % 4294967296 ≤ vend then
        kfree boot ((p - kernbase) / 4096)
        freerangeLoop boot vend fuel ((p + 4096) % 4294967296)

/-- `freerange`, for addresses of the kernel. -/
def freerange (boot : Boot) (vstart vend : Nat) : KernelM Unit :=
  freerangeLoop boot vend 1048577 (pgroundup vstart)

/-- `kinit1` -/
def kinit1 (boot : Boot) (vstart vend : Nat) : KernelM Unit := freerange boot vstart vend

/-- `kinit2` -/
def kinit2 (boot : Boot) (vstart vend : Nat) : KernelM Unit := freerange boot vstart vend

/-- `kvmalloc`; it stops when there is no directory to switch to. -/
def kvmalloc (boot : Boot) : StartM Unit := do
  match ← startKernel (setupkvm boot) with
  | none => throw .noDirectory
  | some _ => return ⟨⟩

/-- `n` calls of `kalloc` by somebody who keeps the frames. -/
def takeFrames : Nat → StartM Unit
  | 0 => return ⟨⟩
  | n + 1 => do
      match ← startKernel kalloc with
      | none => takeFrames n
      | some f =>
          modify fun s => { s with held := f :: s.held }
          takeFrames n

/-- `inituvm` -/
def inituvm (pgdir : Frame) (init : List UInt8) : StartM Unit := do
  if init.length ≥ 4096 then throw .moreThanAPage
  match ← startKernel kalloc with
  | none => throw .nullPointer
  | some mem =>
      startKernel (storePage mem zeroPage)
      let _ ← startKernel (mappages pgdir 0 4096 (mem * 4096) pteWU)
      startKernel (modify fun s => { s with mem := memmove s.mem mem 0 init })

/-- The trap frame of the first process. -/
def firstStack (page : Page) : Page :=
  setWord (setWord (setWord (setHalf (setHalf (setHalf (setHalf
    (fun i => if 4020 ≤ i.val then 0 else page i)
    4080 0x1b) 4064 0x23) 4060 0x23) 4092 0x23) 4084 0x200) 4088 4096) 4076 0

/-- `userinit`, as far as it is about memory. -/
def userinit (setup : Setup) (init : List UInt8) : StartM Unit := do
  match ← startMachine (allocproc setup.trapret setup.forkret) with
  | none => throw .nullPointer
  | some p =>
      match ← startKernel (setupkvm setup.boot) with
      | none => throw .outOfMemory
      | some pgdir =>
          startMachine (setProc p fun proc => { proc with pgdir := pgdir })
          inituvm pgdir init
          startMachine (setProc p fun proc => { proc with sz := 4096 })
          let m := (← get).machine
          let k := (m.procs p).kstack
          startKernel (storePage k (firstStack (m.kernel.mem k)))
          startMachine (setProc p fun proc => { proc with state := .runnable })

/-- `main`: `cpus` frames become stacks of other processors and the drivers take
`drivers` frames. -/
def kernelMain (setup : Setup) (cpus drivers : Nat) (init : List UInt8) : StartM Unit := do
  startKernel (kinit1 setup.boot (kernbase + setup.boot.endAddress) (kernbase + 0x400000))
  kvmalloc setup.boot
  takeFrames cpus
  startKernel (kinit2 setup.boot (kernbase + 0x400000) (kernbase + phystop))
  takeFrames drivers
  userinit setup init

/-- The state that the boot loader leaves: no frame is free and no process exists. -/
def unstarted (mem : Memory) : System where
  machine := ⟨⟨mem, []⟩, fun _ => ⟨.unused, 0, 0, 0, 0, none⟩, 1⟩
  held := []

/-! ## The free list -/

theorem startKernel_ok {Result : Type} {call : KernelM Result} {s : System} {result : Result}
    {kernel : Kernel} (run : call s.machine.kernel = .ok (result, kernel)) :
    startKernel call s =
      .ok (result, ⟨⟨kernel, s.machine.procs, s.machine.nextpid⟩, s.held⟩) := by
  unfold startKernel
  rw [run]

theorem startMachine_ok {Result : Type} {call : MachineM Result} {s : System} {result : Result}
    {m : Machine} (run : call s.machine = .ok (result, m)) :
    startMachine call s = .ok (result, ⟨m, s.held⟩) := by
  unfold startMachine
  rw [run]

/-- The loop of `freerange` puts its frames on the free list, the last one first. -/
theorem freerangeLoop_spec {boot : Boot} {lo n fuel : Nat} (s : Kernel)
    (managed : ∀ f : Nat, lo ≤ f → f < lo + n → Managed boot f) (fits : lo + n ≤ 131072)
    (enough : n < fuel) :
    ∃ s', freerangeLoop boot (2147483648 + (lo + n) * 4096) fuel (2147483648 + lo * 4096) s =
        .ok (⟨⟩, s') ∧ s'.freelist = (List.range' lo n).reverse ++ s.freelist ∧
      ∀ f, f < lo ∨ lo + n ≤ f → s'.mem f = s.mem f := by
  induction n generalizing lo s fuel with
  | zero =>
      obtain ⟨fuel, rfl⟩ : ∃ k, fuel = k + 1 := ⟨fuel - 1, by omega⟩
      have stops : ¬(2147483648 + lo * 4096 + 4096) % 4294967296 ≤
          2147483648 + (lo + 0) * 4096 := by omega
      refine ⟨s, ?_, rfl, fun _ _ => rfl⟩
      simp only [freerangeLoop, if_apply, pure_apply, if_neg stops]
  | succ n ih =>
      obtain ⟨fuel, rfl⟩ : ∃ k, fuel = k + 1 := ⟨fuel - 1, by omega⟩
      have goesOn : 2147483648 + (lo + 1) * 4096 ≤
          2147483648 + (lo + (n + 1)) * 4096 := by omega
      have next : (2147483648 + lo * 4096 + 4096) % 4294967296 =
          2147483648 + (lo + 1) * 4096 := by omega
      have frame : (2147483648 + lo * 4096 - kernbase) / 4096 = lo := by
        unfold kernbase
        omega
      have freed := kfree_apply (managed lo (Nat.le_refl lo) (by omega)) s
      obtain ⟨s', run, free, others⟩ := @ih (lo + 1) fuel
        ⟨Function.update s.mem lo (freedPage s.freelist.head?), lo :: s.freelist⟩
        (fun f low high => managed f (by omega) (by omega)) (by omega)
        (by omega : n < fuel)
      rw [show lo + 1 + n = lo + (n + 1) by omega] at run others
      refine ⟨s', ?_, ?_, ?_⟩
      · simp only [freerangeLoop, if_apply, bind_apply, next, if_pos goesOn, frame, freed, run]
      · rw [free, List.range'_succ, List.reverse_cons, List.append_assoc]
        rfl
      · intro f outside
        have other : f ≠ lo := by omega
        rw [others f (by omega)]
        exact Function.update_of_ne other _ _

section Start

variable {setup : Setup} {all kept : Multiset Frame} {s : System}

/-- There is no process. -/
def NoProcess (s : System) : Prop := ∀ p, (s.proc p).state = .unused

theorem inUse_noProcess (none : NoProcess s) : inUse s.machine = 0 := by
  apply Finset.sum_eq_zero
  intro p _
  exact if_pos (none p)

theorem unstarted_ok (setup : Setup) (mem : Memory) :
    FramesOk setup 0 0 (unstarted mem) := by
  refine ⟨?_, Multiset.nodup_zero, ?_, ?_⟩
  · rw [inUse_noProcess fun _ => rfl]
    rfl
  · intro f isHere
    cases isHere
  · intro p used
    exact absurd rfl used

/-- Frames are put on the free list for the first time. -/
theorem FramesOk.supply {lo n : Nat} {kernel : Kernel} (ok : FramesOk setup all kept s)
    (none : NoProcess s) (fresh : ∀ f ∈ all, f < lo)
    (managed : ∀ f : Nat, lo ≤ f → f < lo + n → Managed setup.boot f)
    (free : kernel.freelist = (List.range' lo n).reverse ++ s.free) :
    FramesOk setup ((List.range' lo n : List Frame) + all) kept
      ⟨⟨kernel, s.machine.procs, s.machine.nextpid⟩, s.held⟩ := by
  have unused : inUse ⟨kernel, s.machine.procs, s.machine.nextpid⟩ = 0 :=
    @inUse_noProcess ⟨⟨kernel, s.machine.procs, s.machine.nextpid⟩, s.held⟩ none
  have balance := ok.balance
  rw [inUse_noProcess none] at balance
  refine ⟨?_, ?_, ?_, ?_⟩
  · have bag : (kernel.freelist : Multiset Frame) =
        ((List.range' lo n : List Frame) : Multiset Frame) + (s.free : Multiset Frame) := by
      rw [free, ← Multiset.coe_add, Multiset.coe_reverse]
    rw [← balance]
    change (kernel.freelist : Multiset Frame) + inUse ⟨kernel, _, _⟩ + (s.held : Multiset Frame) +
      kept = _
    rw [unused, bag]
    simp only [add_assoc]
  · rw [Multiset.nodup_add]
    refine ⟨Multiset.coe_nodup.mpr List.nodup_range', ok.nodup, ?_⟩
    rw [Multiset.disjoint_left]
    intro f isNew isOld
    have low := (List.mem_range'_1.mp (Multiset.mem_coe.mp isNew)).1
    exact absurd (fresh f isOld) (Nat.not_lt.mpr low)
  · intro f isHere
    rcases Multiset.mem_add.mp isHere with isNew | isOld
    · obtain ⟨low, high⟩ := List.mem_range'_1.mp (Multiset.mem_coe.mp isNew)
      exact managed f low high
    · exact ok.managed f isOld
  · intro p used
    exact absurd (none p) used

/-- `kvmalloc` keeps the frames of the kernel's directory. -/
theorem kvmalloc_spec (mode : VideoMode setup.boot) (ok : FramesOk setup all kept s)
    (none : NoProcess s) (enough : kernelFrames setup.boot ≤ s.free.length) :
    ∃ kernel held, kvmalloc setup.boot s =
        .ok (⟨⟩, ⟨⟨kernel, s.machine.procs, s.machine.nextpid⟩, s.held⟩) ∧
      FramesOk setup all (kept + held)
        ⟨⟨kernel, s.machine.procs, s.machine.nextpid⟩, s.held⟩ ∧
      held.card = kernelFrames setup.boot := by
  rcases setupkvm_spec mode ok.freeWf with ⟨-, d, kernel, run, ready⟩ | ⟨few, -⟩
  · have free : (kernel.freelist : Multiset Frame) + owned kernel.mem d =
        (s.free : Multiset Frame) := by
      rw [← ready.total]
      exact add_comm _ _
    refine ⟨kernel, owned kernel.mem d, ?_, ?_, ?_⟩
    · unfold kvmalloc
      rw [bind_of_ok (startKernel_ok run)]
      rfl
    · have moves : Moves setup s .kalloc ⟨⟨kernel, s.machine.procs, s.machine.nextpid⟩, s.held⟩
          setup.initproc (owned kernel.mem d) :=
        moves_of_unused _ _ (fun _ _ => rfl) (none _) (none _) free ready.others
      exact moves.toTransfer.framesOk ok
    · have sizes := congrArg Multiset.card free
      rw [Multiset.card_add, Multiset.coe_card, Multiset.coe_card] at sizes
      have left := ready.length
      change _ = s.free.length at left
      omega
  · exact absurd enough (Nat.not_le.mpr few)

/-- What is taken from the free list is held. -/
theorem takeFrames_spec (n : Nat) (ok : FramesOk setup all kept s) :
    ∃ free held, takeFrames n s = .ok (⟨⟩,
        ⟨⟨⟨s.mem, free⟩, s.machine.procs, s.machine.nextpid⟩, held⟩) ∧
      FramesOk setup all kept ⟨⟨⟨s.mem, free⟩, s.machine.procs, s.machine.nextpid⟩, held⟩ ∧
      s.free.length ≤ free.length + n := by
  induction n generalizing s with
  | zero => exact ⟨s.free, s.held, rfl, ok, Nat.le_refl _⟩
  | succ n ih =>
      unfold takeFrames
      cases frames : s.free with
      | nil =>
          obtain ⟨free, held, run, ok', few⟩ := ih ok
          refine ⟨free, held, ?_, ok', Nat.zero_le _⟩
          rw [bind_of_ok (startKernel_ok (kalloc_nil frames))]
          exact run
      | cons f rest =>
          have moves : Moves setup s .kalloc ⟨⟨⟨s.mem, rest⟩, s.machine.procs,
              s.machine.nextpid⟩, f :: s.held⟩ setup.initproc 0 := by
            apply moves_of_holders _ _ ok fun _ _ _ => rfl
            rw [frames, ← Multiset.cons_coe, ← Multiset.cons_coe, Multiset.cons_add,
              Multiset.add_cons]
          have taken := moves.toTransfer.framesOk ok
          rw [add_zero] at taken
          obtain ⟨free, held, run, ok', few⟩ := ih taken
          refine ⟨free, held, ?_, ok', ?_⟩
          · rw [bind_of_ok (startKernel_ok (kalloc_cons frames))]
            exact run
          · rw [List.length_cons]
            exact Nat.succ_le_succ few

theorem unusedProc_noProcess (none : NoProcess s) : unusedProc s.machine = some 0 := by
  unfold unusedProc
  rw [List.finRange_succ, List.find?_cons_of_pos]
  exact decide_eq_true (none 0)

/-- The page of the first program. -/
theorem inituvm_spec {boot : Boot} {m : Machine} {held : List Frame} {s0 : Kernel} {d : Frame}
    {extra : Multiset Frame} {init : List UInt8} (mode : VideoMode boot)
    (ready : KernelReady boot s0 m.kernel d extra) (short : init.length < 4096)
    (enough : 2 ≤ m.kernel.freelist.length) :
    ∃ kernel, inituvm d init ⟨m, held⟩ = .ok (⟨⟩, ⟨{ m with kernel := kernel }, held⟩) ∧
      Space boot kernel.mem d 4096 ∧ total kernel d = total m.kernel d ∧
      ∀ f ∉ total m.kernel d, kernel.mem f = m.kernel.mem f := by
  obtain ⟨f, t, rest, frames⟩ : ∃ f t rest, m.kernel.freelist = f :: t :: rest := by
    cases frames : m.kernel.freelist with
    | nil =>
        rw [frames, List.length_nil] at enough
        omega
    | cons f tail =>
        cases tail with
        | nil =>
            rw [frames, List.length_singleton] at enough
            omega
        | cons t rest => exact ⟨f, t, rest, rfl⟩
  have size := userPages_eq
  have building := ready.building mode
  have empty : Space boot m.kernel.mem d 0 :=
    ⟨by decide, building.exactly, building.kernel⟩
  obtain ⟨-, entries, -, taken⟩ := wf_take ready.wf frames zeroPage
  have vacant : ¬ PteP (pte (Function.update m.kernel.mem f zeroPage) d 0) := by
    rw [entries]
    exact empty.below.vacant 0 (Nat.le_refl 0) (by omega)
  have run := mappages_page taken (by decide : 0 < 1048576) pteWU (f * 4096)
  rw [if_neg vacant] at run
  cases mapped : mapEntry ⟨Function.update m.kernel.mem f zeroPage, t :: rest⟩ d 0
      (f * 4096 ||| pteWU ||| 1) with
  | none => cases (mapEntry_none mapped).2
  | some s2 =>
      rw [mapped] at run
      have growing := (growing_start ready.wf 0).step (fun u low uLt =>
        empty.below.vacant u low uLt) (Nat.le_refl 0) (by omega) frames mapped
      have space := Growing.space empty (by decide : 0 ≤ 4096) (by decide) growing
      have entry : pte s2.mem d 0 = f * 4096 ||| pteWU ||| 1 := by
        obtain ⟨g, -, entry, -⟩ := growing.mapped 0 (Nat.le_refl 0) (by omega)
        have done := mapEntry_mapped taken.separate (by decide) vacant
          (pteP_entry f (by decide)) (entry_lt_of_frame ((managed_lt (ready.wf.managed_free
            (frames ▸ List.mem_cons_self))).trans (by decide)) (by decide)) mapped
        rw [done.pte, if_pos rfl]
      have here : PteP (pte s2.mem d 0) := entry ▸ pteP_entry f (by decide)
      have address : pteAddr (pte s2.mem d 0) = f := entry ▸ pteAddr_entry f (by decide)
      have wf2 := growing.wf
      have total2 := growing.kept.total
      obtain ⟨tables, entries2, sum, -⟩ := wf2.storePage (by omega : 0 < userPages) here fun i =>
        if 0 ≤ i.val ∧ i.val < 0 + init.length then init.getD (i.val - 0) 0
        else s2.mem (pteAddr (pte s2.mem d 0)) i
      rw [address] at tables entries2 sum
      refine ⟨⟨memmove s2.mem f 0 init, s2.freelist⟩, ?_, ?_, sum.trans total2, ?_⟩
      · change mappages d (0 * 4096) 4096 (f * 4096) pteWU _ = .ok (0, s2) at run
        rw [Nat.zero_mul] at run
        simp only [inituvm, if_neg (Nat.not_le.mpr short), bind_apply, startKernel,
          kalloc_cons frames, storePage, modify_apply, run]
      · refine ⟨space.bound, ?_, space.kernel.congr fun u _ => entries2 u⟩
        intro v vLt
        exact (iff_of_eq (congrArg PteP (entries2 v))).trans (space.below v vLt)
      · intro g outside
        refine (Function.update_of_ne ?_ _ _).trans (growing.kept.others g outside)
        rintro rfl
        apply outside
        rw [mem_total]
        exact .inr (frames ▸ List.mem_cons_self)

/-- The first process has its page and its kernel stack. -/
theorem userinit_spec {init : List UInt8} (mode : VideoMode setup.boot)
    (ok : FramesOk setup all kept s) (none : NoProcess s) (short : init.length < 4096)
    (enough : kernelFrames setup.boot + 3 ≤ s.free.length) :
    ∃ s', userinit setup init s = .ok (⟨⟩, s') ∧ FramesOk setup all kept s' ∧
      (s'.proc 0).state = .runnable := by
  have found := unusedProc_noProcess none
  cases frames : s.free with
  | nil =>
      rw [frames, List.length_nil] at enough
      omega
  | cons k rest =>
      rw [frames, List.length_cons] at enough
      generalize pageEq : newStack setup.trapret setup.forkret (s.mem k) = page
      have alloc : allocproc setup.trapret setup.forkret s.machine = .ok (some 0, ⟨⟨
          Function.update s.mem k page, rest⟩, Function.update s.machine.procs 0
          { s.proc 0 with state := .embryo, pid := s.machine.nextpid, kstack := k },
          s.machine.nextpid + 1⟩) := by
        rw [← pageEq]
        exact allocproc_allocated found frames
      rcases setupkvm_spec mode (ok.freeWf.take frames page) with ⟨-, d, kernel, run, ready⟩ |
        ⟨few, -⟩
      · have left : kernel.freelist.length + kernelFrames setup.boot = rest.length := ready.length
        obtain ⟨kernel2, paged, space, totals, others⟩ := @inituvm_spec setup.boot
          ⟨kernel, Function.update s.machine.procs 0 { s.proc 0 with
            state := .embryo, pid := s.machine.nextpid, kstack := k, pgdir := d },
            s.machine.nextpid + 1⟩ s.held _ d _ init mode ready short (by
              change 2 ≤ kernel.freelist.length
              omega)
        rw [ready.total] at totals
        have live : ProcState.runnable ≠ .unused := by decide
        obtain ⟨transfer, -⟩ := @transfer_of_child 0 rest setup all kept s kernel2
          { s.proc 0 with
            state := .runnable, pid := s.machine.nextpid, kstack := k, pgdir := d, sz := 4096 }
          page (firstStack (kernel2.mem k)) (s.machine.nextpid + 1) ok (none 0) frames live
          space totals (by
            intro f notRest
            rw [others f (by rw [ready.total]; exact notRest)]
            exact ready.others f notRest)
        have done := transfer.framesOk ok
        rw [add_zero] at done
        refine ⟨_, ?_, done, ?_⟩
        rotate_left
        · change (Function.update s.machine.procs 0 _ 0).state = _
          rw [Function.update_self]
          rfl
        · unfold userinit
          rw [bind_of_ok (startMachine_ok alloc)]
          simp only []
          rw [bind_of_ok (startKernel_ok run)]
          simp only []
          have directory : startMachine (setProc 0 fun proc => { proc with pgdir := d })
              ⟨⟨kernel, Function.update s.machine.procs 0 { s.proc 0 with
                state := .embryo, pid := s.machine.nextpid, kstack := k },
                s.machine.nextpid + 1⟩, s.held⟩ = .ok (⟨⟩, ⟨⟨kernel,
              Function.update s.machine.procs 0 { s.proc 0 with
                state := .embryo, pid := s.machine.nextpid, kstack := k, pgdir := d },
              s.machine.nextpid + 1⟩, s.held⟩) := by
            simp only [startMachine, setProc, modify_apply, Function.update_self,
              Function.update_idem]
          rw [bind_of_ok directory, bind_of_ok paged]
          simp only [startMachine, startKernel, setProc, storePage, bind_apply, get_apply,
            modify_apply, Function.update_self, Function.update_idem]
      · have few' : rest.length < kernelFrames setup.boot := few
        omega

/-- The first frame behind the kernel. -/
def firstFrame (boot : Boot) : Nat := (boot.endAddress + 4095) / 4096

/-- The frames from the end of the kernel up to `PHYSTOP`. -/
def memoryFrames (boot : Boot) : Multiset Frame :=
  (List.range' (firstFrame boot) (131072 - firstFrame boot) : List Frame)

theorem managed_of_first {boot : Boot} {f : Nat} (low : firstFrame boot ≤ f)
    (high : f < 131072) : Managed boot f := by
  unfold firstFrame at low
  have above : boot.endAddress ≤ f * 4096 := by omega
  have below : f * 4096 < 536870912 := by omega
  exact ⟨above, below⟩

/-- The range of pages up to a frame. -/
theorem freerange_spec {boot : Boot} {vstart lo hi : Nat} (s : Kernel)
    (start : pgroundup vstart = 2147483648 + lo * 4096) (order : lo ≤ hi) (bound : hi ≤ 131072)
    (managed : ∀ f : Nat, lo ≤ f → f < hi → Managed boot f) :
    ∃ s', freerange boot vstart (2147483648 + hi * 4096) s = .ok (⟨⟩, s') ∧
      s'.freelist = (List.range' lo (hi - lo)).reverse ++ s.freelist := by
  obtain ⟨n, rfl⟩ : ∃ n, hi = lo + n := ⟨hi - lo, by omega⟩
  obtain ⟨s', run, free, -⟩ := freerangeLoop_spec s managed bound
    (by omega : n < 1048577)
  refine ⟨s', ?_, ?_⟩
  · unfold freerange
    rw [start]
    exact run
  · rw [free, Nat.add_sub_cancel_left]

/-- `main` ends with the first process runnable, and every frame behind the kernel
has one use. -/
theorem kernelMain_spec (cpus : Nat) {drivers : Nat} {init : List UInt8}
    (mode : VideoMode setup.boot)
    (room : firstFrame setup.boot + kernelFrames setup.boot ≤ 1024)
    (few : drivers ≤ 100000) (short : init.length < 4096) (mem : Memory) :
    ∃ s kept, kernelMain setup cpus drivers init (unstarted mem) = .ok (⟨⟩, s) ∧
      FramesOk setup (memoryFrames setup.boot) kept s ∧ (s.proc 0).state = .runnable ∧
      kept.card = kernelFrames setup.boot := by
  have tables := kernelFrames_le mode
  have endLt : setup.boot.endAddress < 536870912 := setup.boot.end_lt_phystop
  generalize firstEq : firstFrame setup.boot = first at room
  have start : pgroundup (kernbase + setup.boot.endAddress) = 2147483648 + first * 4096 := by
    rw [← firstEq]
    unfold pgroundup firstFrame kernbase
    omega
  have low (f : Nat) (above : first ≤ f) (below : f < 131072) : Managed setup.boot f :=
    managed_of_first (firstEq ▸ above) below
  -- The frames up to 4 MB.
  obtain ⟨kernel1, run1, free1⟩ := @freerange_spec setup.boot _ first 1024
    (unstarted mem).machine.kernel start (by omega) (by omega)
    (fun f above below => low f above (by omega))
  have ok1 := (unstarted_ok setup mem).supply (fun _ => rfl)
    (by rintro f ⟨⟩) (fun f above below => low f above (by omega)) free1
  have length1 : kernel1.freelist.length = 1024 - first := by
    rw [free1, List.length_append, List.length_reverse, List.length_range']
    rfl
  -- The directory of the kernel and the stacks of the processors.
  obtain ⟨kernel2, held2, run2, ok2, size2⟩ := kvmalloc_spec mode ok1 (fun _ => rfl) (by
    change kernelFrames setup.boot ≤ kernel1.freelist.length
    omega)
  obtain ⟨free3, held3, run3, ok3, -⟩ := takeFrames_spec cpus ok2
  -- The other frames.
  obtain ⟨kernel4, run4, free4⟩ := @freerange_spec setup.boot (kernbase + 0x400000) 1024 131072
    ⟨kernel2.mem, free3⟩ (by decide) (by omega) (by omega)
    (fun f above below => low f (by omega) below)
  have managed4 (f : Nat) (above : 1024 ≤ f) (below : f < 1024 + 130048) :
      Managed setup.boot f := low f (by omega) (by omega)
  have ok4 := @FramesOk.supply setup _ _ _ 1024 130048 kernel4 ok3 (fun _ => rfl) (by
      intro f isHere
      rw [add_zero] at isHere
      have high := (List.mem_range'_1.mp (Multiset.mem_coe.mp isHere)).2
      rw [Nat.add_sub_cancel' (by omega : first ≤ 1024)] at high
      exact high) managed4 free4
  have length4 : 130048 ≤ kernel4.freelist.length := by
    rw [free4, List.length_append, List.length_reverse, List.length_range']
    omega
  obtain ⟨free5, held5, run5, ok5, many⟩ := takeFrames_spec drivers ok4
  have length5 : kernel4.freelist.length ≤ free5.length + drivers := many
  have enough : kernelFrames setup.boot + 3 ≤ free5.length := by omega
  obtain ⟨s, run6, ok6, runnable⟩ := userinit_spec mode ok5 (fun _ => rfl) short enough
  have started : kernelMain setup cpus drivers init (unstarted mem) = .ok (⟨⟩, s) := by
    change kinit1 setup.boot (kernbase + setup.boot.endAddress) (kernbase + 0x400000)
      (unstarted mem).machine.kernel = .ok (⟨⟩, kernel1) at run1
    change kinit2 setup.boot (kernbase + 0x400000) (kernbase + phystop)
      ⟨kernel2.mem, free3⟩ = .ok (⟨⟩, kernel4) at run4
    unfold kernelMain
    rw [bind_of_ok (startKernel_ok run1), bind_of_ok run2, bind_of_ok run3,
      bind_of_ok (startKernel_ok run4), bind_of_ok run5]
    exact run6
  have all : memoryFrames setup.boot = ((List.range' 1024 130048 : List Frame) : Multiset Frame) +
      (((List.range' first (1024 - first) : List Frame) : Multiset Frame) + 0) := by
    have whole := @List.range'_append_1 first (1024 - first) 130048
    rw [show first + (1024 - first) = 1024 by omega,
      show 1024 - first + 130048 = 131072 - first by omega] at whole
    unfold memoryFrames
    rw [firstEq, add_zero, add_comm, Multiset.coe_add, whole]
  rw [← all] at ok6
  exact ⟨s, _, started, ok6, runnable, by rw [zero_add, size2]⟩

/-! ## Every run from the start -/

/-- The process `q` exists and leaves its memory alone. -/
def Rests (q : Fin 64) (s : System) (event : Event) : Prop :=
  (s.proc q).state ≠ .unused ∧ event.writer ≠ some q

/-- The memory of `q` is as before. -/
structure Undisturbed (s s' : System) (q : Fin 64) : Prop where
  sz : (s'.proc q).sz = (s.proc q).sz
  bytes : ∀ va < kernbase, userByte s'.mem (s'.proc q).pgdir va =
    userByte s.mem (s.proc q).pgdir va

/-- No other process and no call of another process changes the memory of `q`. -/
theorem FramesOk.undisturbed {events : List Event} {s' : System} {q : Fin 64}
    (mode : VideoMode setup.boot) (ok : FramesOk setup all kept s)
    (ran : LabelledRuns.run (Vm.step setup) s events = some s')
    (careful : LabelledRuns.RunMeets (Vm.step setup) Careful s events)
    (rests : LabelledRuns.RunMeets (Vm.step setup) (Rests q) s events)
    (used : (s'.proc q).state ≠ .unused) : Undisturbed s s' q := by
  induction events generalizing s kept with
  | nil =>
      cases ran
      exact ⟨rfl, fun _ _ => rfl⟩
  | cons event events ih =>
      obtain ⟨next, stepped, rest⟩ := LabelledRuns.run_cons_eq_some.mp ran
      obtain ⟨now, later⟩ := (LabelledRuns.runMeets_cons_of_some stepped).mpr careful
      obtain ⟨here, after⟩ := (LabelledRuns.runMeets_cons_of_some stepped).mpr rests
      obtain ⟨p, first, moves, ok', -⟩ := ok.step mode now stepped
      have stays : (next.proc q).state ≠ .unused := by
        cases events with
        | nil =>
            cases rest
            exact used
        | cons event events =>
            obtain ⟨last, stepped, -⟩ := LabelledRuns.run_cons_eq_some.mp rest
            exact ((LabelledRuns.runMeets_cons_of_some stepped).mpr after).1.1
      obtain ⟨-, size, bytes⟩ := moves.userByte ok here.2 here.1 stays
      have others := ih ok' rest later after
      exact ⟨others.sz.trans size, fun va user => (others.bytes va user).trans (bytes va user)⟩

/-- From the start of the kernel on, every frame behind it has one use: it is free, it
is the kernel's, it belongs to one process, or somebody else holds it.  A call of `fork`
loses at most one frame, and no call stops the kernel. -/
theorem kernelMain_frames (cpus : Nat) {drivers : Nat} {init : List UInt8}
    (mode : VideoMode setup.boot)
    (room : firstFrame setup.boot + kernelFrames setup.boot ≤ 1024)
    (few : drivers ≤ 100000) (short : init.length < 4096) (mem : Memory) :
    ∃ s0 kept, kernelMain setup cpus drivers init (unstarted mem) = .ok (⟨⟩, s0) ∧
      (s0.proc 0).state = .runnable ∧ kept.card = kernelFrames setup.boot ∧
      ∀ events s, LabelledRuns.run (step setup) s0 events = some s →
        LabelledRuns.RunMeets (step setup) Careful s0 events →
        (∃ lost : Multiset Frame, FramesOk setup (memoryFrames setup.boot) (kept + lost) s ∧
          lost.card ≤ events.countP Event.isFork ∧
          (LabelledRuns.RunMeets (step setup) (fun s event => ¬ Splits setup s event) s0 events →
            lost = 0)) ∧
        ∀ event, Enabled setup s event → Careful s event →
          ∃ s', perform setup s event = .ok s' := by
  obtain ⟨s0, kept, started, ok, runnable, size⟩ := kernelMain_spec cpus mode room few short mem
  refine ⟨s0, kept, started, runnable, size, ?_⟩
  intro events s ran careful
  obtain ⟨lost, ok', bound, clean⟩ := ok.run mode ran careful
  refine ⟨⟨lost, ok', bound, clean⟩, ?_⟩
  intro event enabled now
  obtain ⟨s', -, -, done, -⟩ := perform_moves mode ok' enabled now
  exact ⟨s', done⟩

/-- A kernel with its end at 0x80110000. -/
def smallSetup : Setup := ⟨smallBoot, 0, 0, ⟨0, by decide⟩⟩

theorem smallSetup_room :
    firstFrame smallSetup.boot + kernelFrames smallSetup.boot ≤ 1024 := by
  have tables : kernelFrames smallSetup.boot ≤ 513 := kernelFrames_le smallBoot_mode
  have first : firstFrame smallSetup.boot = 272 := by decide
  omega

theorem smallSetup_frames :
    ∃ s0 kept, kernelMain smallSetup 3 2 [0x68] (unstarted fun _ => zeroPage) = .ok (⟨⟩, s0) ∧
      (s0.proc 0).state = .runnable ∧ kept.card = kernelFrames smallSetup.boot ∧
      ∀ events s, LabelledRuns.run (step smallSetup) s0 events = some s →
        LabelledRuns.RunMeets (step smallSetup) Careful s0 events →
        (∃ lost : Multiset Frame,
          FramesOk smallSetup (memoryFrames smallSetup.boot) (kept + lost) s ∧
          lost.card ≤ events.countP Event.isFork ∧
          (LabelledRuns.RunMeets (step smallSetup) (fun s event => ¬ Splits smallSetup s event)
            s0 events → lost = 0)) ∧
        ∀ event, Enabled smallSetup s event → Careful s event →
          ∃ s', perform smallSetup s event = .ok s' :=
  kernelMain_frames 3 smallBoot_mode smallSetup_room (by decide) (by decide) _

/-- From the start of the kernel on, the memory of a process changes by its own stores,
`exec` and `sbrk` only, and a new process is a copy of its parent. -/
theorem kernelMain_isolation (cpus : Nat) {drivers : Nat} {init : List UInt8}
    (mode : VideoMode setup.boot)
    (room : firstFrame setup.boot + kernelFrames setup.boot ≤ 1024)
    (few : drivers ≤ 100000) (short : init.length < 4096) (mem : Memory) :
    ∃ s0, kernelMain setup cpus drivers init (unstarted mem) = .ok (⟨⟩, s0) ∧
      ∀ events s, LabelledRuns.run (step setup) s0 events = some s →
        LabelledRuns.RunMeets (step setup) Careful s0 events →
        (∀ more s' q, LabelledRuns.run (step setup) s more = some s' →
          LabelledRuns.RunMeets (step setup) Careful s more →
          LabelledRuns.RunMeets (step setup) (Rests q) s more →
          (s'.proc q).state ≠ .unused → Undisturbed s s' q) ∧
        ∀ event s' p, step setup s event = some s' → Careful s event →
          (s.proc p).state = .unused → (s'.proc p).state ≠ .unused →
          ∃ cur, event = .fork cur ∧ (s.proc cur).state ≠ .unused ∧ Born s s' p cur := by
  obtain ⟨s0, kept, started, ok, -, -⟩ := kernelMain_spec cpus mode room few short mem
  refine ⟨s0, started, ?_⟩
  intro events s ran careful
  obtain ⟨lost, ok', -, -⟩ := ok.run mode ran careful
  constructor
  · intro more s' q ran careful rests used
    exact ok'.undisturbed mode ran careful rests used
  · intro event s' p stepped careful unused used
    obtain ⟨q, gone, moves, -, -⟩ := ok'.step mode careful stepped
    by_cases isSelf : p = q
    · subst isSelf
      exact moves.born unused used
    · exact absurd ((moves.others p isSelf).used.mpr unused) used

theorem smallSetup_isolation :
    ∃ s0, kernelMain smallSetup 3 2 [0x68] (unstarted fun _ => zeroPage) = .ok (⟨⟩, s0) ∧
      ∀ events s, LabelledRuns.run (step smallSetup) s0 events = some s →
        LabelledRuns.RunMeets (step smallSetup) Careful s0 events →
        (∀ more s' q, LabelledRuns.run (step smallSetup) s more = some s' →
          LabelledRuns.RunMeets (step smallSetup) Careful s more →
          LabelledRuns.RunMeets (step smallSetup) (Rests q) s more →
          (s'.proc q).state ≠ .unused → Undisturbed s s' q) ∧
        ∀ event s' p, step smallSetup s event = some s' → Careful s event →
          (s.proc p).state = .unused → (s'.proc p).state ≠ .unused →
          ∃ cur, event = .fork cur ∧ (s.proc cur).state ≠ .unused ∧ Born s s' p cur :=
  kernelMain_isolation 3 smallBoot_mode smallSetup_room (by decide) (by decide) _

end Start

end Xv6.Vm
