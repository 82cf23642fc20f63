import Xv6.ProcTable
import Xv6.SpaceCopy

/-!
# `fork` and the free frames

`fork` takes a frame for the kernel stack of the child before `copyuvm`, and
gives it back when `copyuvm` fails.  The frame that `copyuvm` may lose is lost for
`fork` too.
-/

namespace Xv6.Vm

open ByteFields StateTriples

/-- `struct proc`, as far as `fork` and `allocproc` use it for memory.  The null
pointer is 0, which is not the frame of anything. -/
structure ProcSpace where
  state : ProcState
  pid : Nat
  kstack : Frame
  pgdir : Frame
  sz : Nat
  parent : Option (Fin 64)

/-- The process table and the memory. -/
structure Machine where
  kernel : Kernel
  procs : Fin 64 → ProcSpace
  nextpid : Nat

abbrev MachineM := StateT Machine (Except VmStop)

/-- A call of the memory functions. -/
def onKernel {Result : Type} (call : KernelM Result) : MachineM Result := fun m =>
  match call m.kernel with
  | .ok (result, kernel) => .ok (result, { m with kernel := kernel })
  | .error stop => .error stop

def setProc (p : Fin 64) (change : ProcSpace → ProcSpace) : MachineM Unit :=
  modify fun m => { m with procs := Function.update m.procs p (change (m.procs p)) }

/-- The kernel stack that `allocproc` prepares, with the context at offset 3996,
the return address at 4016 and the trap frame above it. -/
def newStack (trapret forkret : Nat) (page : Page) : Page :=
  setWord (setWord (setWord (setWord (setWord (setWord page 4016 trapret)
    3996 0) 4000 0) 4004 0) 4008 0) 4012 forkret

/-- `allocproc` -/
def allocproc (trapret forkret : Nat) : MachineM (Option (Fin 64)) := do
  let m ← get
  match (List.finRange 64).find? fun p => decide ((m.procs p).state = .unused) with
  | none => return none
  | some p =>
      setProc p fun proc => { proc with state := .embryo, pid := m.nextpid }
      modify fun m => { m with nextpid := m.nextpid + 1 }
      match ← onKernel kalloc with
      | none =>
          setProc p fun proc => { proc with kstack := 0, state := .unused }
          return none
      | some k =>
          setProc p fun proc => { proc with kstack := k }
          let m ← get
          onKernel (storePage k (newStack trapret forkret (m.kernel.mem k)))
          return some p

/-- The trap frame of one kernel stack, copied into another with `eax` zero. -/
def childStack (own parent : Page) : Page :=
  setWord (fun i => if 4020 ≤ i.val then parent i else own i) 4048 0

/-- `fork` of process `cur`. -/
def fork (boot : Boot) (trapret forkret : Nat) (cur : Fin 64) : MachineM Int := do
  match ← allocproc trapret forkret with
  | none => return -1
  | some np =>
      let curproc := (← get).procs cur
      match ← onKernel (copyuvm boot curproc.pgdir curproc.sz) with
      | none =>
          setProc np fun proc => { proc with pgdir := 0 }
          onKernel (kfree boot ((← get).procs np).kstack)
          setProc np fun proc => { proc with kstack := 0, state := .unused }
          return -1
      | some d =>
          setProc np fun proc =>
            { proc with pgdir := d, sz := curproc.sz, parent := some cur }
          let m ← get
          let k := (m.procs np).kstack
          onKernel (storePage k (childStack (m.kernel.mem k) (m.kernel.mem curproc.kstack)))
          setProc np fun proc => { proc with state := .runnable }
          return ((← get).procs np).pid

/-! ## What `fork` does to the frames -/

/-- The first unused entry of the process table. -/
def unusedProc (m : Machine) : Option (Fin 64) :=
  (List.finRange 64).find? fun p => decide ((m.procs p).state = .unused)

/-- An entry that is in use is as before. -/
def SameProcs (m m' : Machine) : Prop :=
  ∀ q, (m.procs q).state ≠ .unused → m'.procs q = m.procs q

theorem sameProcs_update {m : Machine} {np : Fin 64} (free : (m.procs np).state = .unused)
    {procs : Fin 64 → ProcSpace} (same : ∀ q, q ≠ np → procs q = m.procs q)
    (kernel : Kernel) (nextpid : Nat) : SameProcs m ⟨kernel, procs, nextpid⟩ := by
  intro q used
  refine same q ?_
  rintro rfl
  exact used free

section Allocproc

variable {m : Machine} {np : Fin 64} {trapret forkret : Nat}

theorem allocproc_full (full : unusedProc m = none) :
    allocproc trapret forkret m = .ok (none, m) := by
  unfold unusedProc at full
  simp only [allocproc, bind_apply, get_apply, full, pure_apply]

theorem allocproc_noFrame (found : unusedProc m = some np)
    (empty : m.kernel.freelist = []) :
    ∃ procs, allocproc trapret forkret m =
        .ok (none, ⟨m.kernel, procs, m.nextpid + 1⟩) ∧
      ∀ q, q ≠ np → procs q = m.procs q := by
  unfold unusedProc at found
  refine ⟨?_, ?_, ?_⟩
  rotate_left
  · simp only [allocproc, bind_apply, get_apply, found, setProc, modify_apply,
      onKernel, kalloc_nil empty, pure_apply]
    rfl
  · intro q other
    simp only [Function.update_of_ne other]

theorem allocproc_some {k : Frame} {rest : List Frame} (found : unusedProc m = some np)
    (frames : m.kernel.freelist = k :: rest) :
    ∃ procs, allocproc trapret forkret m =
        .ok (some np, ⟨⟨Function.update m.kernel.mem k
          (newStack trapret forkret (m.kernel.mem k)), rest⟩, procs, m.nextpid + 1⟩) ∧
      (procs np).kstack = k ∧ ∀ q, q ≠ np → procs q = m.procs q := by
  unfold unusedProc at found
  refine ⟨?_, ?_, ?_, ?_⟩
  rotate_left
  · simp only [allocproc, bind_apply, get_apply, found, setProc, modify_apply,
      onKernel, kalloc_cons frames, storePage, pure_apply]
    rfl
  · simp only [Function.update_self]
  · intro q other
    simp only [Function.update_of_ne other]

end Allocproc

section Fork

variable {boot : Boot} {m m1 : Machine} {np cur : Fin 64} {trapret forkret : Nat}
  {extra : Multiset Frame}

/-- `fork` when `copyuvm` fails. -/
theorem fork_failed {s' : Kernel} (alloc : allocproc trapret forkret m = .ok (some np, m1))
    (copy : copyuvm boot (m1.procs cur).pgdir (m1.procs cur).sz m1.kernel = .ok (none, s'))
    (managed : Managed boot (m1.procs np).kstack) :
    ∃ m', fork boot trapret forkret cur m = .ok (-1, m') ∧
      m'.kernel = ⟨Function.update s'.mem (m1.procs np).kstack
        (freedPage s'.freelist.head?), (m1.procs np).kstack :: s'.freelist⟩ ∧
      ∀ q, q ≠ np → m'.procs q = m1.procs q := by
  have free := kfree_apply managed s'
  refine ⟨?_, ?_, ?_⟩
  rotate_left
  · simp only [fork, bind_apply, alloc, get_apply, onKernel, copy, setProc, modify_apply,
      Function.update_self, free, pure_apply]
    rfl
  · refine ⟨rfl, fun q other => ?_⟩
    simp only [Function.update_of_ne other]

/-- `fork` when `copyuvm` succeeds returns the child's pid. -/
theorem fork_succeeded {s' : Kernel} {d : Frame}
    (alloc : allocproc trapret forkret m = .ok (some np, m1))
    (copy : copyuvm boot (m1.procs cur).pgdir (m1.procs cur).sz m1.kernel =
      .ok (some d, s')) :
    ∃ (pid : Nat) (m' : Machine), fork boot trapret forkret cur m = .ok ((pid : Int), m') := by
  refine ⟨?_, ?_, ?_⟩
  rotate_left
  rotate_left
  · simp only [fork, bind_apply, alloc, get_apply, onKernel, copy, setProc, modify_apply,
      storePage, pure_apply]
    rfl

/-- When `fork` fails, the free frames, all other frames and all processes are as
before. -/
def ForksCleanly (boot : Boot) (trapret forkret : Nat) (cur : Fin 64) (m : Machine) :
    Prop :=
  ∃ result m', fork boot trapret forkret cur m = .ok (result, m') ∧
    (result = -1 → SameFrames m.kernel m'.kernel ∧ SameProcs m m')

theorem unusedProc_state (found : unusedProc m = some np) :
    (m.procs np).state = .unused := by
  have test := List.find?_some found
  exact of_decide_eq_true test

/-- The frame of the kernel stack is taken. -/
theorem FreeWf.take {s : Kernel} {k : Frame} {rest : List Frame}
    (wf : FreeWf boot s extra) (frames : s.freelist = k :: rest) (page : Page) :
    FreeWf boot ⟨Function.update s.mem k page, rest⟩ ({k} + extra) := by
  have same : ((rest : List Frame) : Multiset Frame) + ({k} + extra) =
      (s.freelist : Multiset Frame) + extra := by
    rw [frames, ← Multiset.cons_coe, ← Multiset.singleton_add, ← add_assoc,
      add_comm (rest : Multiset Frame)]
  refine ⟨?_, ?_⟩
  · rw [same]
    exact wf.nodup
  · rw [same]
    exact wf.managed

theorem Parent.take {s : Kernel} {p k : Frame} {rest : List Frame} {n : Nat}
    (parent : Parent s p n) (frames : s.freelist = k :: rest) (page : Page) :
    Parent ⟨Function.update s.mem k page, rest⟩ p n := by
  have others (f : Frame) (notFree : f ∉ s.freelist) :
      Function.update s.mem k page f = s.mem f := by
    refine Function.update_of_ne ?_ _ _
    rintro rfl
    exact notFree (frames ▸ List.mem_cons_self)
  obtain ⟨tables, entries⟩ := @Parent.pte_eq s ⟨Function.update s.mem k page, rest⟩ p n
    parent others
  refine ⟨fun f isOwned inRest => ?_, fun v vLt => ?_⟩
  · rw [owned_congr tables fun v _ => entries v] at isOwned
    exact parent.apart f isOwned (frames ▸ List.mem_cons_of_mem k inRest)
  · rw [entries]
    exact parent.present v vLt

theorem forksCleanly_cases {k : Frame} {rest : List Frame} (mode : VideoMode boot)
    (wf : FreeWf boot m.kernel extra)
    (parent : Parent m.kernel (m.procs cur).pgdir (pages (m.procs cur).sz))
    (szLt : (m.procs cur).sz < kernbase) (used : (m.procs cur).state ≠ .unused)
    (found : unusedProc m = some np) (frames : m.kernel.freelist = k :: rest) :
    ForksCleanly boot trapret forkret cur m ↔
      ¬ SplitsPair boot rest.length (m.procs cur).sz := by
  have free := unusedProc_state found
  obtain ⟨procs, alloc, stack, others⟩ :=
    @allocproc_some m np trapret forkret k rest found frames
  have notNew : cur ≠ np := by
    rintro rfl
    exact used free
  have managed : Managed boot k := wf.managed k (Multiset.mem_add.mpr (.inl
    (Multiset.mem_coe.mpr (frames ▸ List.mem_cons_self))))
  have ends := copyuvm_ends mode
    (wf.take frames (newStack trapret forkret (m.kernel.mem k)))
    (parent.take frames (newStack trapret forkret (m.kernel.mem k))) szLt
  have lengthEq : m.kernel.freelist.length = rest.length + 1 := by
    rw [frames, List.length_cons]
  rw [← others cur notNew] at ends
  rcases ends with ⟨fits, d, s', run, _⟩ | ⟨fits, s', run, same⟩ | ⟨splits, s', run, lost⟩
  · obtain ⟨pid, m', ended⟩ := fork_succeeded alloc run
    rw [others cur notNew] at fits
    refine iff_of_true ⟨pid, m', ended, fun failed => ?_⟩ fits
    omega
  · obtain ⟨m', ended, kernel, kept⟩ := fork_failed alloc run (by
      show Managed boot (procs np).kstack
      rw [stack]
      exact managed)
    rw [others cur notNew] at fits
    refine iff_of_true ⟨-1, m', ended, fun _ => ⟨⟨?_, fun f notFree => ?_⟩,
      fun q inUse => ?_⟩⟩ fits
    · rw [kernel, frames]
      simp only [stack]
      rw [← Multiset.cons_coe, same.free, Multiset.cons_coe]
    · have notK : f ≠ k := by
        rintro rfl
        exact notFree (frames ▸ List.mem_cons_self)
      have notRest : f ∉ rest := fun inRest =>
        notFree (frames ▸ List.mem_cons_of_mem k inRest)
      rw [kernel]
      simp only [stack]
      rw [Function.update_of_ne notK, same.others f notRest]
      exact Function.update_of_ne notK _ _
    · have other : q ≠ np := by
        rintro rfl
        exact inUse free
      rw [kept q other]
      exact others q other
  · obtain ⟨m', ended, kernel, _⟩ := fork_failed alloc run (by
      show Managed boot (procs np).kstack
      rw [stack]
      exact managed)
    rw [others cur notNew] at splits
    refine iff_of_false ?_ (not_not_intro splits)
    rintro ⟨result, last, ran, clean⟩
    rw [ended] at ran
    cases ran
    have lengths := congrArg Multiset.card (clean rfl).1.free
    rw [kernel, Multiset.coe_card, Multiset.coe_card, lengthEq] at lengths
    have lost' : s'.freelist.length + 1 = rest.length := lost
    simp only [List.length_cons] at lengths
    omega

end Fork

/-- `copyuvm` and `fork` leak nothing exactly when the free list does not end
between a page of the child and the table for it. -/
theorem copyuvm_fork_clean_iff {boot : Boot} (mode : VideoMode boot) :
    (∀ s p extra sz, FreeWf boot s extra → Parent s p (pages sz) → sz < kernbase →
      (CopiesCleanly boot s p extra sz ↔ ¬ SplitsPair boot s.freelist.length sz)) ∧
    ∀ trapret forkret cur m extra, FreeWf boot m.kernel extra →
      Parent m.kernel (m.procs cur).pgdir (pages (m.procs cur).sz) →
      (m.procs cur).sz < kernbase → (m.procs cur).state ≠ .unused →
      (ForksCleanly boot trapret forkret cur m ↔ unusedProc m = none ∨
        ¬ SplitsPair boot (m.kernel.freelist.length - 1) (m.procs cur).sz) := by
  refine ⟨fun s p extra sz wf parent szLt => copiesCleanly_iff mode wf parent szLt,
    fun trapret forkret cur m extra wf parent szLt used => ?_⟩
  cases found : unusedProc m with
  | none =>
      refine iff_of_true ⟨-1, m, ?_, fun _ => ⟨⟨rfl, fun _ _ => rfl⟩, fun _ _ => rfl⟩⟩
        (.inl rfl)
      exact bind_of_ok (allocproc_full found)
  | some np =>
      rw [or_iff_right (by simp)]
      cases frames : m.kernel.freelist with
      | nil =>
          obtain ⟨procs, alloc, others⟩ := @allocproc_noFrame m np trapret forkret found frames
          refine iff_of_true ⟨-1, _, bind_of_ok alloc, fun _ => ⟨⟨rfl, fun _ _ => rfl⟩, ?_⟩⟩ ?_
          · exact sameProcs_update (unusedProc_state found) others _ _
          · rintro ⟨j, _, free⟩
            rw [List.length_nil] at free
            omega
      | cons k rest =>
          rw [forksCleanly_cases mode wf parent szLt used found frames, List.length_cons,
            Nat.add_sub_cancel]

/-- An address space with one page, and `n` free frames from 700 on. -/
def onePageFree (n : Nat) : Kernel := ⟨onePage.mem, List.range' 700 n⟩

theorem onePageFree_parent (n : Nat) : Parent (onePageFree n) 512 (pages 4096) := by
  refine ⟨fun f isOwned isFree => ?_, fun v vLt => ?_⟩
  · have inTotal : f ∈ total onePage 512 := mem_total.mpr (.inl isOwned)
    rw [onePage_mapped.user (by rw [userPages_eq]; decide)] at inTotal
    unfold total at inTotal
    rw [owned_of_none (emptySpace_tables _)] at inTotal
    have first := (List.mem_range'_1.mp isFree).1
    simp only [emptySpace, Multiset.mem_add, Multiset.mem_singleton, Multiset.mem_coe,
      List.mem_cons, List.not_mem_nil, or_false] at inTotal
    rcases inTotal with (rfl | rfl | rfl) | rfl <;> revert first <;> decide
  · have vUser : v < userPages := by
      have size := userPages_eq
      have one : v < 1 := vLt
      omega
    exact (onePage_presentBelow v vUser).mpr vLt

theorem onePageFree_wf {n : Nat} (few : n ≤ 100000) :
    FreeWf smallBoot (onePageFree n) 0 := by
  refine ⟨?_, fun f isHere => ?_⟩
  · rw [add_zero]
    exact Multiset.coe_nodup.mpr List.nodup_range'
  · rw [add_zero, Multiset.mem_coe] at isHere
    obtain ⟨first, last⟩ := List.mem_range'_1.mp isHere
    exact managed_of_between (by decide) (by omega) (by omega)

local instance oneProcess_neZero : NeZero 64 := ⟨by decide⟩

/-- One process with one page runs, and `n` frames are free. -/
def oneProcess (n : Nat) : Machine where
  kernel := onePageFree n
  procs p := if p = 0 then ⟨.running, 1, 602, 512, 4096, none⟩
    else ⟨.unused, 0, 0, 0, 0, none⟩
  nextpid := 2

theorem onePageFree_clean :
    CopiesCleanly smallBoot (onePageFree 600) 512 0 4096 ∧
      ForksCleanly smallBoot 0 0 0 (oneProcess 600) := by
  obtain ⟨copy, fork⟩ := copyuvm_fork_clean_iff smallBoot_mode
  have few := kernelFrames_le smallBoot_mode
  have apart (free : Nat) (many : 515 ≤ free) : ¬ SplitsPair smallBoot free 4096 := by
    rintro ⟨j, inside, length⟩
    have one : 1024 * j < 1 := inside
    omega
  have length : (onePageFree 600).freelist.length = 600 := List.length_range'
  constructor
  · refine (copy _ _ _ _ (onePageFree_wf (by decide)) (onePageFree_parent 600)
      (by decide)).mpr (apart _ ?_)
    rw [length]
    decide
  · refine (fork 0 0 0 (oneProcess 600) 0 (onePageFree_wf (by decide))
      (onePageFree_parent 600) (by decide) (by decide)).mpr (.inr (apart _ ?_))
    rw [show (oneProcess 600).kernel.freelist.length = 600 from length]
    decide

/-- The free list has one frame more than `setupkvm` needs: the frame of the only
page is lost. -/
theorem onePageFree_leaks :
    ¬ CopiesCleanly smallBoot (onePageFree (kernelFrames smallBoot + 1)) 512 0 4096 := by
  have few := kernelFrames_le smallBoot_mode
  have length : (onePageFree (kernelFrames smallBoot + 1)).freelist.length =
      kernelFrames smallBoot + 1 := List.length_range'
  rw [copiesCleanly_iff smallBoot_mode (onePageFree_wf (by omega)) (onePageFree_parent _)
    (by decide), length]
  exact not_not_intro ⟨0, by decide, by omega⟩

end Xv6.Vm
