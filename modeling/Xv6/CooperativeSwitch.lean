import Mathlib.Data.List.FinRange
import Mathlib.Logic.Function.Basic
import Mathlib.Logic.Relation
import Xv6.UserMachine

/-!
# Cooperative switching in memory

The thread library of `uthread1.c` as it acts on the bytes of the process:
the table `all_thread`, the variables `current_thread` and `next_thread`, and
the stacks.  `thread_switch` is executed instruction by instruction.  Between
calls of the library a thread runs code of its own, which may do anything to
the registers and to the thread's own stack.  No timer redirects occur.

The saved frame of a suspended thread, or the frame that `thread_create`
builds by hand for a new one, stays as it is until a switch resumes it.
-/

namespace Xv6.Cooperative

open ByteFields

/-- The word at an address. -/
def loadAt (mem : UserMemory) (address : Nat) : Word :=
  BitVec.ofNat 32 (getWord mem address)

/-- Store a word at an address. -/
def storeAt (mem : UserMemory) (address : Nat) (value : Word) : UserMemory :=
  setWord mem address value.toNat

/-- `MAX_THREAD`. -/
abbrev maxThread : Nat := 4

abbrev ThreadIndex := Fin maxThread

/-- `STACK_SIZE`. -/
abbrev stackSize : Nat := 8192

/-- The offset of `stack` in `struct thread`, after the word `sp`. -/
abbrev stackOffset : Nat := 4

/-- The offset of `state` in `struct thread`. -/
abbrev stateOffset : Nat := 8196

/-- `sizeof(struct thread)`. -/
abbrev threadSize : Nat := 8200

def free : Word := 0
def running : Word := 1
def runnable : Word := 2

/-- Where the linker and the kernel have put the library's variables and the
stack that `main` runs on. -/
structure Layout where
  /-- the address of `all_thread` -/
  allThread : Nat
  /-- the address of `current_thread` -/
  current : Nat
  /-- the address of `next_thread` -/
  next : Nat
  mainLow : Nat
  mainTop : Nat
  allThread_pos : 0 < allThread
  allThread_fits : allThread + maxThread * threadSize ≤ 2 ^ 32
  current_fits : current + 4 ≤ 2 ^ 32
  next_fits : next + 4 ≤ 2 ^ 32
  main_fits : mainTop ≤ 2 ^ 32
  variables_apart : current + 4 ≤ next ∨ next + 4 ≤ current
  current_table : current + 4 ≤ allThread ∨
    allThread + maxThread * threadSize ≤ current
  next_table : next + 4 ≤ allThread ∨
    allThread + maxThread * threadSize ≤ next
  current_main : current + 4 ≤ mainLow ∨ mainTop ≤ current
  next_main : next + 4 ≤ mainLow ∨ mainTop ≤ next
  main_table : mainTop ≤ allThread ∨
    allThread + maxThread * threadSize ≤ mainLow

namespace Layout

variable (layout : Layout)

/-- The address of `all_thread[t]`, at which its field `sp` lies. -/
def entry (t : ThreadIndex) : Nat := layout.allThread + threadSize * t.val

/-- `&all_thread[t]`. -/
def pointer (t : ThreadIndex) : Word := BitVec.ofNat 32 (layout.entry t)

def currentAddress : Word := BitVec.ofNat 32 layout.current

def nextAddress : Word := BitVec.ofNat 32 layout.next

/-- `all_thread[t].state`. -/
def state (mem : UserMemory) (t : ThreadIndex) : Word :=
  loadAt mem (layout.entry t + stateOffset)

/-- The loop of `thread_create`. -/
def findFree (mem : UserMemory) : Option ThreadIndex :=
  (List.finRange maxThread).find? fun t => layout.state mem t = free

/-- What `thread_create` stores in the slot it has found. -/
def fillSlot (func : Word) (t : ThreadIndex) (mem : UserMemory) : UserMemory :=
  let sp := layout.entry t
  let mem := storeAt mem sp
    (BitVec.ofNat 32 (layout.entry t + stackOffset + stackSize))
  let mem := storeAt mem sp (loadAt mem sp - 4)
  let mem := store mem (loadAt mem sp) func
  let mem := storeAt mem sp (loadAt mem sp - 16)
  storeAt mem (layout.entry t + stateOffset) runnable

/-- `thread_create`. -/
def threadCreate (func : Word) (mem : UserMemory) : UserMemory :=
  match layout.findFree mem with
  | some t => layout.fillSlot func t mem
  | none => mem

/-- The loop of `thread_schedule`. -/
def foundNext (mem : UserMemory) : Option ThreadIndex :=
  (List.finRange maxThread).find? fun t =>
    layout.state mem t = runnable ∧
      layout.pointer t ≠ loadAt mem layout.current

/-- What `thread_schedule` stores before it calls `thread_switch`. -/
def handOver (t : ThreadIndex) (mem : UserMemory) : UserMemory :=
  let currentSave := loadAt mem layout.current
  let mem := storeAt mem layout.next (layout.pointer t)
  let mem := store mem (loadAt mem layout.next + 8196) running
  if currentSave ≠ 0 ∧ load mem (currentSave + 8196) = running then
    store mem (currentSave + 8196) runnable
  else mem

/-- The test of `thread_schedule` that ends the process when no thread can
run. -/
def noThreads (mem : UserMemory) : Prop :=
  loadAt mem layout.current = 0 ∨
    load mem (loadAt mem layout.current + 8196) = free

instance (mem : UserMemory) : Decidable (layout.noThreads mem) :=
  inferInstanceAs (Decidable (_ ∨ _))

/-- The first statement of `thread_exit`. -/
def threadExit (mem : UserMemory) : UserMemory :=
  store mem (loadAt mem layout.current + 8196) free

/-- The statements of `thread_init` after the system call. -/
def threadInit (mem : UserMemory) : UserMemory :=
  let mem := storeAt mem layout.current (layout.pointer 0)
  let mem := store mem (loadAt mem layout.current + 8196) running
  (([1, 2, 3] : List ThreadIndex)).foldl
    (fun mem t => storeAt mem (layout.entry t + stateOffset) free) mem

end Layout

/-- What a thread that does not run continues with: the function it was
created for, or the state in which it called `thread_switch`. -/
inductive Context where
  | created (func : Word)
  | suspended (atCall : Machine)

/-- The process.  `exiting` holds while the running thread is inside
`thread_exit`, `onMain` of a thread that runs on the stack of the process
instead of the one in its slot. -/
structure ThreadRun where
  machine : Machine
  exiting : Bool
  exited : Bool
  onMain : ThreadIndex → Bool
  context : ThreadIndex → Option Context

namespace ThreadRun

variable (layout : Layout)

/-- The lowest byte of a thread's stack. -/
def low (s : ThreadRun) (t : ThreadIndex) : Nat :=
  if s.onMain t then layout.mainLow else layout.entry t + stackOffset

/-- The end of a thread's stack. -/
def top (s : ThreadRun) (t : ThreadIndex) : Nat :=
  if s.onMain t then layout.mainTop
  else layout.entry t + stackOffset + stackSize

/-- `current_thread` points to `t`. -/
def IsCurrent (s : ThreadRun) (t : ThreadIndex) : Prop :=
  loadAt s.machine.mem layout.current = layout.pointer t

/-- The bytes that belong to the library and to the threads' stacks. -/
def Managed (k : Nat) : Prop :=
  (layout.allThread ≤ k ∧ k < layout.allThread + maxThread * threadSize) ∨
    (layout.current ≤ k ∧ k < layout.current + 4) ∨
    (layout.next ≤ k ∧ k < layout.next + 4) ∨
    (layout.mainLow ≤ k ∧ k < layout.mainTop)

/-- The running thread executes code of its own: of the managed bytes it
changes only those of its own stack. -/
def OwnCode (s : ThreadRun) (c : ThreadIndex) (after : Machine) : Prop :=
  ∀ k, Managed layout k → (k < s.low layout c ∨ s.top layout c ≤ k) →
    getByte after.mem k = getByte s.machine.mem k

/-- The stack has room for the return address and for the four registers that
`thread_switch` pushes. -/
def WithinStack (s : ThreadRun) (c : ThreadIndex) : Prop :=
  s.low layout c + 16 ≤ s.machine.esp.toNat ∧
    s.machine.esp.toNat + 4 ≤ s.top layout c

/-- The running thread as it calls `thread_switch`. -/
def atCall (s : ThreadRun) (t : ThreadIndex) : Machine :=
  { s.machine with mem := layout.handOver t s.machine.mem }

/-- `thread_schedule` has found thread `t`. -/
def switchTo (s : ThreadRun) (c t : ThreadIndex) : ThreadRun :=
  { s with
    machine := (s.atCall layout t).threadSwitch layout.currentAddress
      layout.nextAddress
    exiting := false
    context := Function.update (Function.update s.context c
      (if s.exiting then none else some (.suspended (s.atCall layout t)))) t none }

/-- One step of the process: the running thread executes code of its own or
calls the library. -/
inductive Step : ThreadRun → ThreadRun → Prop where
  | compute {s : ThreadRun} {c : ThreadIndex} {after : Machine}
      (live : s.exited = false) (current : s.IsCurrent layout c)
      (own : s.OwnCode layout c after) :
      Step s { s with machine := after }
  | createFull {s : ThreadRun} {func : Word} (live : s.exited = false)
      (calls : s.exiting = false)
      (found : layout.findFree s.machine.mem = none) :
      Step s { s with machine := { s.machine with
        mem := layout.threadCreate func s.machine.mem } }
  | create {s : ThreadRun} {func : Word} {t : ThreadIndex}
      (live : s.exited = false) (calls : s.exiting = false)
      (found : layout.findFree s.machine.mem = some t) :
      Step s { s with
        machine := { s.machine with
          mem := layout.threadCreate func s.machine.mem }
        onMain := Function.update s.onMain t false
        context := Function.update s.context t (some (.created func)) }
  | exit {s : ThreadRun} (live : s.exited = false) (calls : s.exiting = false) :
      Step s { s with
        machine := { s.machine with mem := layout.threadExit s.machine.mem }
        exiting := true }
  | switch {s : ThreadRun} {c t : ThreadIndex} (live : s.exited = false)
      (current : s.IsCurrent layout c) (within : s.WithinStack layout c)
      (found : layout.foundNext s.machine.mem = some t) :
      Step s (s.switchTo layout c t)
  | stay {s : ThreadRun} (live : s.exited = false)
      (found : layout.foundNext s.machine.mem = none)
      (some : ¬ layout.noThreads s.machine.mem) : Step s s
  | stop {s : ThreadRun} (live : s.exited = false)
      (found : layout.foundNext s.machine.mem = none)
      (none : layout.noThreads s.machine.mem) :
      Step s { s with exited := true }

/-- The process after `thread_init`. -/
def begin (machine : Machine) : ThreadRun where
  machine := { machine with mem := layout.threadInit machine.mem }
  exiting := false
  exited := false
  onMain := fun t => t = 0
  context := fun _ => none

/-- The states that a sequence of calls can reach. -/
def Reachable (s : ThreadRun) : Prop :=
  ∃ machine, Relation.ReflTransGen (Step layout) (begin layout machine) s

end ThreadRun

/-! ## Words in memory -/

theorem loadAt_storeAt (mem : UserMemory) {address : Nat} (value : Word)
    (fits : address + 4 ≤ 2 ^ 32) :
    loadAt (storeAt mem address value) address = value := by
  unfold loadAt storeAt
  rw [getWord_setWord _ _ fits]
  apply BitVec.eq_of_toNat_eq
  rw [BitVec.toNat_ofNat, Nat.mod_mod]
  exact Nat.mod_eq_of_lt value.isLt

theorem loadAt_storeAt_of_apart (mem : UserMemory) {address other : Nat}
    (value : Word) (fits : address + 4 ≤ 2 ^ 32)
    (apart : other + 4 ≤ address ∨ address + 4 ≤ other) :
    loadAt (storeAt mem address value) other = loadAt mem other := by
  unfold loadAt storeAt
  rw [getWord_setWord_of_disjoint _ _ fits apart]

theorem getByte_storeAt (mem : UserMemory) {address k : Nat} (value : Word)
    (fits : address + 4 ≤ 2 ^ 32)
    (outside : k < address ∨ address + 4 ≤ k) :
    getByte (storeAt mem address value) k = getByte mem k :=
  getByte_setWord_of_outside mem _ fits outside

theorem loadAt_congr {mem mem' : UserMemory} {address : Nat}
    (same : ∀ k, address ≤ k → k < address + 4 →
      getByte mem' k = getByte mem k) :
    loadAt mem' address = loadAt mem address := by
  unfold loadAt
  rw [getWord_congr same]

namespace Layout

variable {layout : Layout}

variable (layout) in
theorem entry_fits (t : ThreadIndex) :
    layout.entry t + threadSize ≤ layout.allThread + maxThread * threadSize := by
  have bound := t.isLt
  simp only [entry, maxThread, threadSize] at *
  omega

variable (layout) in
theorem entry_lt (t : ThreadIndex) : layout.entry t + threadSize ≤ 2 ^ 32 :=
  (layout.entry_fits t).trans layout.allThread_fits

variable (layout) in
theorem allThread_le_entry (t : ThreadIndex) :
    layout.allThread ≤ layout.entry t :=
  Nat.le_add_right _ _

variable (layout) in
theorem entries_apart {t u : ThreadIndex} (other : t ≠ u) :
    layout.entry t + threadSize ≤ layout.entry u ∨
      layout.entry u + threadSize ≤ layout.entry t := by
  have differ : t.val ≠ u.val := fun same => other (Fin.ext same)
  simp only [entry, threadSize]
  omega

variable (layout) in
theorem pointer_toNat (t : ThreadIndex) :
    (layout.pointer t).toNat = layout.entry t := by
  have bound := layout.entry_lt t
  simp only [threadSize] at bound
  simp only [pointer, BitVec.toNat_ofNat]
  omega

theorem pointer_state (t : ThreadIndex) :
    (layout.pointer t + 8196).toNat = layout.entry t + stateOffset := by
  have bound := layout.entry_lt t
  have pointed := layout.pointer_toNat t
  simp only [threadSize] at bound
  simp only [stateOffset]
  bv_omega

theorem pointer_ne_zero (t : ThreadIndex) : layout.pointer t ≠ 0 := by
  intro zero
  have pointed := layout.pointer_toNat t
  have positive := layout.allThread_pos
  have above := layout.allThread_le_entry t
  rw [zero] at pointed
  simp at pointed
  omega

theorem pointer_inj {t u : ThreadIndex}
    (same : layout.pointer t = layout.pointer u) : t = u := by
  by_contra other
  have apart := layout.entries_apart other
  have first := layout.pointer_toNat t
  have second := layout.pointer_toNat u
  rw [same] at first
  simp only [threadSize] at apart
  omega

variable (layout) in
/-- The frame that `thread_create` builds: `sp` points 20 bytes below the end
of the stack array, and the word above the four registers is `func`. -/
theorem fillSlot_spec (func : Word) (t : ThreadIndex) (mem : UserMemory) :
    loadAt (layout.fillSlot func t mem) (layout.entry t) =
        BitVec.ofNat 32 (layout.entry t + 8176) ∧
      loadAt (layout.fillSlot func t mem) (layout.entry t + 8192) = func ∧
      layout.state (layout.fillSlot func t mem) t = runnable ∧
      ∀ k, k < layout.entry t ∨ layout.entry t + threadSize ≤ k →
        getByte (layout.fillSlot func t mem) k = getByte mem k := by
  have bound := layout.entry_lt t
  simp only [threadSize] at bound
  let end' := BitVec.ofNat 32 (layout.entry t + stackOffset + stackSize)
  let mem1 := storeAt mem (layout.entry t) end'
  have sp1 : loadAt mem1 (layout.entry t) = end' :=
    loadAt_storeAt _ _ (by omega)
  let mem2 := storeAt mem1 (layout.entry t) (loadAt mem1 (layout.entry t) - 4)
  have sp2 : loadAt mem2 (layout.entry t) = end' - 4 := by
    rw [loadAt_storeAt _ _ (by omega), sp1]
  have eip : (end' - 4).toNat = layout.entry t + 8192 := by
    have endNat : end'.toNat = layout.entry t + 8196 := by
      simp only [end', stackOffset, stackSize, BitVec.toNat_ofNat]
      omega
    bv_omega
  let mem3 := storeAt mem2 (layout.entry t + 8192) func
  have sp3 : loadAt mem3 (layout.entry t) = end' - 4 := by
    rw [loadAt_storeAt_of_apart _ _ (by omega) (by omega), sp2]
  let mem4 := storeAt mem3 (layout.entry t) (loadAt mem3 (layout.entry t) - 16)
  have filled : layout.fillSlot func t mem =
      storeAt mem4 (layout.entry t + stateOffset) runnable := by
    have third : store mem2 (loadAt mem2 (layout.entry t)) func = mem3 := by
      show storeAt mem2 (loadAt mem2 (layout.entry t)).toNat func = mem3
      rw [sp2, eip]
    simp only [fillSlot]
    rw [show store (storeAt (storeAt mem _ _) _ _) _ func = mem3 from third]
  have stateFits : layout.entry t + stateOffset + 4 ≤ 2 ^ 32 := by
    simp only [stateOffset]
    omega
  rw [filled]
  refine ⟨?_, ?_, loadAt_storeAt _ _ stateFits, fun k outside => ?_⟩
  · rw [loadAt_storeAt_of_apart _ _ stateFits (by simp only [stateOffset]; omega),
      loadAt_storeAt _ _ (by omega), sp3]
    apply BitVec.eq_of_toNat_eq
    simp only [BitVec.toNat_ofNat]
    bv_omega
  · rw [loadAt_storeAt_of_apart _ _ stateFits (by simp only [stateOffset]; omega),
      loadAt_storeAt_of_apart _ _ (by omega) (by omega),
      loadAt_storeAt _ _ (by omega)]
  · simp only [threadSize] at outside
    rw [getByte_storeAt _ _ stateFits (by simp only [stateOffset]; omega),
      getByte_storeAt _ _ (by omega) (by omega),
      getByte_storeAt _ _ (by omega) (by omega),
      getByte_storeAt _ _ (by omega) (by omega),
      getByte_storeAt _ _ (by omega) (by omega)]

theorem threadCreate_of_found {mem : UserMemory} (func : Word)
    {t : ThreadIndex} (found : layout.findFree mem = some t) :
    layout.threadCreate func mem = layout.fillSlot func t mem := by
  unfold threadCreate
  rw [found]

/-- `thread_create` with no `FREE` slot stores nothing. -/
theorem threadCreate_full {mem : UserMemory} (func : Word)
    (full : ∀ t, layout.state mem t ≠ free) :
    layout.threadCreate func mem = mem := by
  have noSlot : layout.findFree mem = none :=
    List.find?_eq_none.mpr fun t _ isFree => full t (of_decide_eq_true isFree)
  unfold threadCreate
  rw [noSlot]

theorem state_congr {mem mem' : UserMemory} {t : ThreadIndex}
    (same : ∀ k, layout.entry t + stateOffset ≤ k →
      k < layout.entry t + threadSize → getByte mem' k = getByte mem k) :
    layout.state mem' t = layout.state mem t :=
  loadAt_congr fun k low high => same k low (by
    simp only [stateOffset, threadSize] at *
    omega)

/-- Thread `t`, which is not the current thread `c`, is being handed the
processor: only `next_thread` and the two states are stored to. -/
theorem handOver_spec {mem : UserMemory} {c t : ThreadIndex}
    (current : loadAt mem layout.current = layout.pointer c) (other : t ≠ c) :
    loadAt (layout.handOver t mem) layout.next = layout.pointer t ∧
      layout.state (layout.handOver t mem) t = running ∧
      layout.state (layout.handOver t mem) c =
        (if layout.state mem c = running then runnable
          else layout.state mem c) ∧
      ∀ k, (k < layout.next ∨ layout.next + 4 ≤ k) →
        (k < layout.entry t + stateOffset ∨ layout.entry t + threadSize ≤ k) →
        (k < layout.entry c + stateOffset ∨ layout.entry c + threadSize ≤ k) →
        getByte (layout.handOver t mem) k = getByte mem k := by
  have boundT := layout.entry_lt t
  have boundC := layout.entry_lt c
  have tableT := layout.entry_fits t
  have tableC := layout.entry_fits c
  have aboveT := layout.allThread_le_entry t
  have aboveC := layout.allThread_le_entry c
  have apart := layout.entries_apart other
  have outside := layout.next_table
  have fits := layout.next_fits
  simp only [stateOffset, threadSize, maxThread] at *
  let mem1 := storeAt mem layout.next (layout.pointer t)
  have next1 : loadAt mem1 layout.next = layout.pointer t :=
    loadAt_storeAt _ _ fits
  let mem2 := storeAt mem1 (layout.entry t + 8196) running
  have second : store mem1 (loadAt mem1 layout.next + 8196) running = mem2 := by
    show storeAt mem1 (loadAt mem1 layout.next + 8196).toNat running = mem2
    rw [next1, pointer_state]
  have stateC : loadAt mem2 (layout.entry c + 8196) = layout.state mem c := by
    rw [loadAt_storeAt_of_apart _ _ (by omega) (by omega),
      loadAt_storeAt_of_apart _ _ fits (by omega)]
    rfl
  have stored : layout.handOver t mem =
      if layout.state mem c = running then
        storeAt mem2 (layout.entry c + 8196) runnable
      else mem2 := by
    have loaded : load mem2 (layout.pointer c + 8196) = layout.state mem c := by
      show loadAt mem2 (layout.pointer c + 8196).toNat = _
      rw [pointer_state, stateC]
    have written : store mem2 (layout.pointer c + 8196) runnable =
        storeAt mem2 (layout.entry c + 8196) runnable := by
      show storeAt mem2 (layout.pointer c + 8196).toNat runnable = _
      rw [pointer_state]
    simp only [handOver, current]
    rw [show store (storeAt mem _ _) _ running = mem2 from second, loaded,
      written]
    simp only [pointer_ne_zero, ne_eq, not_false_eq_true, true_and]
  have frame2 (k : Nat) (notNext : k < layout.next ∨ layout.next + 4 ≤ k)
      (notT : k < layout.entry t + 8196 ∨ layout.entry t + 8200 ≤ k) :
      getByte mem2 k = getByte mem k := by
    rw [getByte_storeAt _ _ (by omega) (by omega),
      getByte_storeAt _ _ fits notNext]
  have next2 : loadAt mem2 layout.next = layout.pointer t := by
    rw [loadAt_storeAt_of_apart _ _ (by omega) (by omega), next1]
  have state2 : layout.state mem2 t = running := loadAt_storeAt _ _ (by omega)
  rw [stored]
  split
  · refine ⟨?_, ?_, loadAt_storeAt _ _ (by omega), fun k notNext notT notC => ?_⟩
    · rw [loadAt_storeAt_of_apart _ _ (by omega) (by omega), next2]
    · rw [← state2]
      exact loadAt_storeAt_of_apart _ _ (by omega) (by simp only [stateOffset]; omega)
    · rw [getByte_storeAt _ _ (by omega) (by omega), frame2 k notNext notT]
  · exact ⟨next2, state2, stateC, fun k notNext notT _ => frame2 k notNext notT⟩

theorem currentAddress_toNat : layout.currentAddress.toNat = layout.current := by
  have fits := layout.current_fits
  simp only [currentAddress, BitVec.toNat_ofNat]
  omega

theorem nextAddress_toNat : layout.nextAddress.toNat = layout.next := by
  have fits := layout.next_fits
  simp only [nextAddress, BitVec.toNat_ofNat]
  omega

/-- The pushes of `thread_switch` touch neither the variables nor the `sp`
fields. -/
structure PushesApart (layout : Layout) (esp : Word) : Prop where
  room : 16 ≤ esp.toNat
  current : layout.current + 4 ≤ esp.toNat - 16 ∨ esp.toNat ≤ layout.current
  next : layout.next + 4 ≤ esp.toNat - 16 ∨ esp.toNat ≤ layout.next
  entry : ∀ t, layout.entry t + 4 ≤ esp.toNat - 16 ∨ esp.toNat ≤ layout.entry t

/-- The machine in `thread_switch` just before it pops the registers of the
next thread. -/
def switched (layout : Layout) (m : Machine) : Machine :=
  Machine.loadSp layout.currentAddress layout.nextAddress
    (Machine.saveSp layout.currentAddress m.pushCalleeSaved)

/-- `thread_switch` stores the stack pointer in the slot of the caller, the
next thread in `current_thread`, and nothing else besides its pushes. -/
theorem switched_spec {m : Machine} {c t : ThreadIndex}
    (current : loadAt m.mem layout.current = layout.pointer c)
    (next : loadAt m.mem layout.next = layout.pointer t) (other : t ≠ c)
    (apart : PushesApart layout m.esp) :
    (layout.switched m).esp = loadAt m.mem (layout.entry t) ∧
      loadAt (layout.switched m).mem layout.current = layout.pointer t ∧
      loadAt (layout.switched m).mem (layout.entry c) =
        m.pushCalleeSaved.esp ∧
      ∀ k, (k < layout.entry c ∨ layout.entry c + 4 ≤ k) →
        (k < layout.current ∨ layout.current + 4 ≤ k) →
        getByte (layout.switched m).mem k = getByte m.pushCalleeSaved.mem k := by
  have boundC := layout.entry_lt c
  have tableT := layout.entry_fits t
  have tableC := layout.entry_fits c
  have aboveT := layout.allThread_le_entry t
  have aboveC := layout.allThread_le_entry c
  have entries := layout.entries_apart other
  have nextOutside := layout.next_table
  have currentOutside := layout.current_table
  have fits := layout.current_fits
  have globals := layout.variables_apart
  simp only [threadSize, maxThread] at *
  have pushed {address : Nat} (outside : address + 4 ≤ m.esp.toNat - 16 ∨
      m.esp.toNat ≤ address) :
      loadAt m.pushCalleeSaved.mem address = loadAt m.mem address :=
    loadAt_congr fun k low high =>
      Machine.pushCalleeSaved_mem_of_outside apart.room (by omega)
  have owner : load m.pushCalleeSaved.mem layout.currentAddress =
      layout.pointer c := by
    show loadAt _ layout.currentAddress.toNat = _
    rw [currentAddress_toNat, pushed apart.current, current]
  let saved := storeAt m.pushCalleeSaved.mem (layout.entry c)
    m.pushCalleeSaved.esp
  have first : store m.pushCalleeSaved.mem (layout.pointer c)
      m.pushCalleeSaved.esp = saved := by
    show storeAt _ (layout.pointer c).toNat _ = saved
    rw [pointer_toNat]
  have savedNext : load saved layout.nextAddress = layout.pointer t := by
    show loadAt saved layout.nextAddress.toNat = _
    rw [nextAddress_toNat, loadAt_storeAt_of_apart _ _ (by omega) (by omega),
      pushed apart.next, next]
  let handed := storeAt saved layout.current (layout.pointer t)
  have second : store saved layout.currentAddress (layout.pointer t) =
      handed := by
    show storeAt saved layout.currentAddress.toNat _ = handed
    rw [currentAddress_toNat]
  have sp : load handed (layout.pointer t) = loadAt m.mem (layout.entry t) := by
    show loadAt handed (layout.pointer t).toNat = _
    rw [pointer_toNat, loadAt_storeAt_of_apart _ _ fits (by omega),
      loadAt_storeAt_of_apart _ _ (by omega) (by omega), pushed (apart.entry t)]
  have result : layout.switched m =
      { m.pushCalleeSaved with
        eax := layout.pointer t
        mem := handed
        esp := loadAt m.mem (layout.entry t) } := by
    simp only [switched, Machine.loadSp, Machine.saveSp, owner, first,
      savedNext, second, sp]
  rw [result]
  refine ⟨rfl, loadAt_storeAt _ _ fits, ?_, fun k notEntry notCurrent => ?_⟩
  · show loadAt handed (layout.entry c) = _
    rw [loadAt_storeAt_of_apart _ _ fits (by omega),
      loadAt_storeAt _ _ (by omega)]
  · show getByte handed k = _
    rw [getByte_storeAt _ _ fits notCurrent,
      getByte_storeAt _ _ (by omega) notEntry]

end Layout

end Xv6.Cooperative
