import Xv6.TrapModel

/-!
# Preemption of a user thread

A tick on the redirect path makes the interrupted thread call
`thread_schedule` as if by a `call` at the interrupted instruction.  The C code
of `thread_schedule` is known only through the i386 calling convention, and
`thread_switch` through its instructions.  Together they bring back `ebx`,
`esi`, `edi`, `ebp`, `esp` and the stack at and above the interrupted stack
pointer; nothing saves `eax`, `ecx`, `edx` or `eflags`.
-/

namespace Xv6

open ByteFields

/-- The addresses of the variables `current_thread` and `next_thread`. -/
structure SwitchGlobals where
  current : Word
  next : Word

/-- One user thread: its stack occupies the bytes from `low` up to `top`, and
`entry` is the address of its `all_thread` entry, whose first field is `sp`. -/
structure UserThread where
  low : Nat
  top : Nat
  entry : Word
  top_le : top ≤ 2 ^ 32

/-- The four bytes at `address` lie outside the thread's stack. -/
def UserThread.Outside (thread : UserThread) (address : Word) : Prop :=
  address.toNat + 4 ≤ thread.low ∨ thread.top ≤ address.toNat

/-- `current_thread` and the thread's entry are separate words outside the
thread's stack. -/
structure Placed (globals : SwitchGlobals) (thread : UserThread) : Prop where
  currentFits : WordFits globals.current
  entryFits : WordFits thread.entry
  currentOutside : thread.Outside globals.current
  entryOutside : thread.Outside thread.entry
  entry_current : WordsApart thread.entry globals.current

/-- `after` is a state in which a C function entered in `before` has returned
to its caller: the return address is popped, the callee-saved registers are
back, and the caller's stack is as it was.  Nothing is said about `eax`,
`ecx`, `edx` and `eflags`. -/
structure ReturnsTo (thread : UserThread) (before after : Machine) : Prop where
  eip : after.eip = before.topOfStack
  esp : after.esp = before.esp + 4
  ebx : after.ebx = before.ebx
  esi : after.esi = before.esi
  edi : after.edi = before.edi
  ebp : after.ebp = before.ebp
  stack : ∀ k, before.esp.toNat + 4 ≤ k → k < thread.top →
    getByte after.mem k = getByte before.mem k

/-- `thread_schedule` compiled under the i386 calling convention.  Its code
either returns without switching, or runs up to the entry of `thread_switch`
and, once that call has returned as calls do, runs on to its own return. -/
structure ScheduleCode (thread : UserThread) where
  noSwitch : Machine → Machine → Prop
  toSwitch : Machine → Machine → Prop
  fromSwitch : Machine → Machine → Machine → Prop
  noSwitch_returns : ∀ {entry last}, noSwitch entry last →
    ReturnsTo thread entry last
  /-- the frame is below the return address and within the stack -/
  toSwitch_room : ∀ {entry atCall}, toSwitch entry atCall →
    thread.low + 16 ≤ atCall.esp.toNat ∧
      atCall.esp.toNat + 4 ≤ thread.top
  fromSwitch_returns : ∀ {entry atCall back last}, toSwitch entry atCall →
    ReturnsTo thread atCall back → fromSwitch entry back last →
    ReturnsTo thread entry last

/-- Other threads ran from `before` to `after`: they wrote neither this
thread's stack nor the `sp` field of its entry. -/
structure LeavesThread (thread : UserThread) (before after : Machine) :
    Prop where
  stack : ∀ k, thread.low ≤ k → k < thread.top →
    getByte after.mem k = getByte before.mem k
  entry : load after.mem thread.entry = load before.mem thread.entry

/-- A thread other than this one is about to execute `thread_switch` with
`next_thread` pointing to this thread; its stack and entry are its own. -/
structure SwitchesTo (globals : SwitchGlobals) (thread : UserThread)
    (m : Machine) : Prop where
  next : load m.mem globals.next = thread.entry
  room : 16 ≤ m.esp.toNat
  pushes : m.esp.toNat ≤ thread.low ∨ thread.top ≤ m.esp.toNat - 16
  pushes_entry : m.esp.toNat ≤ thread.entry.toNat ∨
    thread.entry.toNat + 4 ≤ m.esp.toNat - 16
  pushes_next : m.esp.toNat ≤ globals.next.toNat ∨
    globals.next.toNat + 4 ≤ m.esp.toNat - 16
  saveFits : WordFits (load (m.pushCalleeSaved).mem globals.current)
  saveOutside : thread.Outside (load (m.pushCalleeSaved).mem globals.current)
  saveEntry : WordsApart thread.entry
    (load (m.pushCalleeSaved).mem globals.current)
  saveNext : WordsApart globals.next
    (load (m.pushCalleeSaved).mem globals.current)

/-- The thread's call of `thread_schedule`, from its entry to its return: it
returns without a switch, or the thread is switched out, other threads run,
and one of them switches back to it. -/
inductive ScheduleCall (globals : SwitchGlobals) (thread : UserThread)
    (code : ScheduleCode thread) : Machine → Machine → Prop where
  | stays {entry last : Machine} (returned : code.noSwitch entry last) :
      ScheduleCall globals thread code entry last
  | switches {entry atCall switchingBack last : Machine}
      (called : code.toSwitch entry atCall)
      (isCurrent : load (atCall.pushCalleeSaved).mem globals.current =
        thread.entry)
      (others : LeavesThread thread
        (atCall.threadSwitch globals.current globals.next) switchingBack)
      (back : SwitchesTo globals thread switchingBack)
      (returned : code.fromSwitch entry
        (switchingBack.threadSwitch globals.current globals.next) last) :
      ScheduleCall globals thread code entry last

/-- From the interrupted state `before`, through the redirect of the timer
interrupt and the call of the scheduler, to the state in which the thread is
again at the interrupted instruction. -/
def Resumes (globals : SwitchGlobals) (thread : UserThread)
    (userMapped : Nat → Bool) (before after : Machine) : Prop :=
  ∃ (code : ScheduleCode thread) (cpu0 killedFirst killedSecond : Bool)
    (kernelEsp : Word) (proc : TrapProc) (handled : TrapRun),
    proc.state = .running ∧ proc.scheduler ≠ 0 ∧
      handled = TrapRun.trapTimer cpu0 killedFirst killedSecond userMapped
        ⟨alltraps before timerTrapno kernelEsp, before.mem, some proc, [],
          false⟩ ∧
      handled.exited = false ∧
      ScheduleCall globals thread code (trapret handled.tf handled.mem) after

/-- Every register and every word of the stack at or above the stack pointer
has the value it had at the interrupt. -/
structure Transparent (thread : UserThread) (before after : Machine) :
    Prop where
  eip : after.eip = before.eip
  esp : after.esp = before.esp
  ebx : after.ebx = before.ebx
  esi : after.esi = before.esi
  edi : after.edi = before.edi
  ebp : after.ebp = before.ebp
  eax : after.eax = before.eax
  ecx : after.ecx = before.ecx
  edx : after.edx = before.edx
  eflags : after.eflags = before.eflags
  stack : ∀ k, before.esp.toNat ≤ k → k < thread.top →
    getByte after.mem k = getByte before.mem k

/-- What the redirect does bring back. -/
structure Preserved (thread : UserThread) (before after : Machine) :
    Prop where
  eip : after.eip = before.eip
  esp : after.esp = before.esp
  ebx : after.ebx = before.ebx
  esi : after.esi = before.esi
  edi : after.edi = before.edi
  ebp : after.ebp = before.ebp
  stack : ∀ k, before.esp.toNat ≤ k → k < thread.top →
    getByte after.mem k = getByte before.mem k

theorem threadSwitch_mem (current next : Word) (m : Machine) :
    (m.threadSwitch current next).mem =
      (Machine.loadSp current next (Machine.saveSp current
        m.pushCalleeSaved)).mem :=
  rfl

/-- Storing a word outside the stack changes no byte of the stack. -/
theorem getByte_store_in_stack {thread : UserThread} {address : Word}
    (mem : UserMemory) (value : Word) (fits : WordFits address)
    (outside : thread.Outside address) {k : Nat} (low : thread.low ≤ k)
    (high : k < thread.top) :
    getByte (store mem address value) k = getByte mem k := by
  refine getByte_store_of_outside mem value fits ?_
  unfold UserThread.Outside at outside
  omega

/-- After this thread has been switched away from, its entry holds the stack
pointer under which its registers are saved. -/
theorem switched_away {globals : SwitchGlobals} {thread : UserThread}
    {atCall : Machine} (placed : Placed globals thread)
    (isCurrent : load (atCall.pushCalleeSaved).mem globals.current =
      thread.entry) :
    load (atCall.threadSwitch globals.current globals.next).mem thread.entry =
        atCall.pushCalleeSaved.esp ∧
      ∀ k, thread.low ≤ k → k < thread.top →
        getByte (atCall.threadSwitch globals.current globals.next).mem k =
          getByte atCall.pushCalleeSaved.mem k := by
  have memEq : (atCall.threadSwitch globals.current globals.next).mem =
      store (store atCall.pushCalleeSaved.mem thread.entry
        atCall.pushCalleeSaved.esp) globals.current
        (load (store atCall.pushCalleeSaved.mem thread.entry
          atCall.pushCalleeSaved.esp) globals.next) := by
    simp only [threadSwitch_mem, Machine.loadSp, Machine.saveSp, isCurrent]
  rw [memEq]
  constructor
  · rw [load_store_of_apart _ _ placed.currentFits placed.entry_current,
      load_store _ _ placed.entryFits]
  · intro k low high
    rw [getByte_store_in_stack _ _ placed.currentFits placed.currentOutside
        low high,
      getByte_store_in_stack _ _ placed.entryFits placed.entryOutside low high]

/-- Another thread's `thread_switch` to this thread loads the stack pointer
stored in its entry and leaves its stack alone. -/
theorem switched_back {globals : SwitchGlobals} {thread : UserThread}
    {m : Machine} (placed : Placed globals thread)
    (back : SwitchesTo globals thread m) :
    (Machine.loadSp globals.current globals.next
        (Machine.saveSp globals.current m.pushCalleeSaved)).esp =
        load m.mem thread.entry ∧
      ∀ k, thread.low ≤ k → k < thread.top →
        getByte (Machine.loadSp globals.current globals.next
            (Machine.saveSp globals.current m.pushCalleeSaved)).mem k =
          getByte m.mem k := by
  let owner := load m.pushCalleeSaved.mem globals.current
  let saved := store m.pushCalleeSaved.mem owner m.pushCalleeSaved.esp
  have pushed {address : Word}
      (apart : m.esp.toNat ≤ address.toNat ∨
        address.toNat + 4 ≤ m.esp.toNat - 16) :
      load m.pushCalleeSaved.mem address = load m.mem address :=
    load_congr fun k low high =>
      Machine.pushCalleeSaved_mem_of_outside back.room (by omega)
  have next : load saved globals.next = thread.entry := by
    rw [load_store_of_apart _ _ back.saveFits back.saveNext,
      pushed back.pushes_next, back.next]
  have loaded : Machine.loadSp globals.current globals.next
      (Machine.saveSp globals.current m.pushCalleeSaved) =
      { m.pushCalleeSaved with
        eax := thread.entry
        mem := store saved globals.current thread.entry
        esp := load (store saved globals.current thread.entry)
          thread.entry } := by
    simp only [Machine.loadSp, Machine.saveSp]
    rw [show load (store m.pushCalleeSaved.mem (load m.pushCalleeSaved.mem
      globals.current) m.pushCalleeSaved.esp) globals.next = thread.entry
      from next]
  rw [loaded]
  constructor
  · show load (store saved globals.current thread.entry) thread.entry = _
    rw [load_store_of_apart _ _ placed.currentFits placed.entry_current,
      load_store_of_apart _ _ back.saveFits back.saveEntry,
      pushed back.pushes_entry]
  · intro k low high
    show getByte (store saved globals.current thread.entry) k = _
    rw [getByte_store_in_stack _ _ placed.currentFits placed.currentOutside
        low high,
      getByte_store_in_stack _ _ back.saveFits back.saveOutside low high,
      Machine.pushCalleeSaved_mem_of_outside back.room (by
        have := back.pushes
        omega)]

/-- A call of `thread_switch` looks to the thread like any other call: it
returns with the callee-saved registers and the caller's stack intact. -/
theorem threadSwitch_returnsTo {globals : SwitchGlobals} {thread : UserThread}
    {atCall switchingBack : Machine} (placed : Placed globals thread)
    (room : thread.low + 16 ≤ atCall.esp.toNat)
    (inside : atCall.esp.toNat + 4 ≤ thread.top)
    (isCurrent : load (atCall.pushCalleeSaved).mem globals.current =
      thread.entry)
    (others : LeavesThread thread
      (atCall.threadSwitch globals.current globals.next) switchingBack)
    (back : SwitchesTo globals thread switchingBack) :
    ReturnsTo thread atCall
      (switchingBack.threadSwitch globals.current globals.next) := by
  obtain ⟨storedSp, awayStack⟩ := switched_away placed isCurrent
  obtain ⟨loadedSp, backStack⟩ := switched_back placed back
  let resumed := Machine.loadSp globals.current globals.next
    (Machine.saveSp globals.current switchingBack.pushCalleeSaved)
  have sp : resumed.esp = atCall.pushCalleeSaved.esp := by
    rw [show resumed.esp = _ from loadedSp, others.entry, storedSp]
  have spNat : atCall.pushCalleeSaved.esp.toNat = atCall.esp.toNat - 16 :=
    Machine.pushCalleeSaved_esp_toNat (by omega)
  have stack (k : Nat) (low : thread.low ≤ k) (high : k < thread.top) :
      getByte resumed.mem k = getByte atCall.pushCalleeSaved.mem k := by
    rw [show getByte resumed.mem k = _ from backStack k low high,
      others.stack k low high, awayStack k low high]
  have word {address : Word}
      (low : atCall.pushCalleeSaved.esp.toNat ≤ address.toNat)
      (high : address.toNat + 4 ≤ thread.top) :
      load resumed.mem address = load atCall.pushCalleeSaved.mem address :=
    load_congr fun k kLow kHigh => stack k (by omega) (by omega)
  have saved := Machine.pushCalleeSaved_savedAt (m := atCall) (by omega)
  have topBound := thread.top_le
  have esp1 := toNat_add_four atCall.pushCalleeSaved.esp
    (by omega)
  have esp2 := toNat_add_four (atCall.pushCalleeSaved.esp + 4)
    (by omega)
  have esp3 := toNat_add_four (atCall.pushCalleeSaved.esp + 4 + 4)
    (by omega)
  have esp4 := toNat_add_four
    (atCall.pushCalleeSaved.esp + 4 + 4 + 4) (by omega)
  change ReturnsTo thread atCall resumed.popCalleeSavedRet
  refine ⟨?_, ?_, ?_, ?_, ?_, ?_, ?_⟩
  · change load resumed.mem (resumed.esp + 4 + 4 + 4 + 4) = _
    rw [sp, word (by omega) (by omega), saved.eip]
  · change resumed.esp + 4 + 4 + 4 + 4 + 4 = _
    rw [sp, Machine.pushCalleeSaved_esp_add]
  · change load resumed.mem (resumed.esp + 4 + 4) = _
    rw [sp, word (by omega) (by omega), saved.ebx]
  · change load resumed.mem (resumed.esp + 4) = _
    rw [sp, word (by omega) (by omega), saved.esi]
  · change load resumed.mem resumed.esp = _
    rw [sp, word (by omega) (by omega), saved.edi]
  · change load resumed.mem (resumed.esp + 4 + 4 + 4) = _
    rw [sp, word (by omega) (by omega), saved.ebp]
  · intro k low high
    change getByte resumed.mem k = _
    rw [stack k (by omega) high, Machine.pushCalleeSaved_mem_of_outside
      (by omega) (by omega)]

/-- A call of `thread_schedule` returns under the calling convention, whatever
switches it makes. -/
theorem scheduleCall_returnsTo {globals : SwitchGlobals} {thread : UserThread}
    {code : ScheduleCode thread} {entry last : Machine}
    (placed : Placed globals thread)
    (call : ScheduleCall globals thread code entry last) :
    ReturnsTo thread entry last := by
  cases call with
  | stays returned => exact code.noSwitch_returns returned
  | switches called isCurrent others back returned =>
      obtain ⟨room, inside⟩ := code.toSwitch_room called
      exact code.fromSwitch_returns called
        (threadSwitch_returnsTo placed room inside isCurrent others back)
        returned

/-- The word below the interrupted stack pointer is user-mapped, and the
stack pointer lies within the thread's stack. -/
structure Interruptible (thread : UserThread) (userMapped : Nat → Bool)
    (before : Machine) : Prop where
  above : 4 ≤ before.esp.toNat
  inside : before.esp.toNat ≤ thread.top
  firstPage : userMapped ((before.esp - 4).toNat / 4096)
  lastPage : userMapped (((before.esp - 4).toNat + 3) / 4096)

theorem copyoutWord_of_interruptible {thread : UserThread}
    {userMapped : Nat → Bool} {before : Machine}
    (interruptible : Interruptible thread userMapped before) :
    copyoutWord userMapped before.mem (before.esp - 4) before.eip =
      some (store before.mem (before.esp - 4) before.eip) := by
  have lower : (before.esp - 4).toNat = before.esp.toNat - 4 := by
    have := interruptible.above
    bv_omega
  have bound := before.esp.isLt
  refine if_pos ⟨?_, interruptible.firstPage, interruptible.lastPage⟩
  have := interruptible.above
  omega

/-- The redirected process enters its scheduler as if the interrupted
instruction had been preceded by a call. -/
theorem trapret_of_redirect {thread : UserThread} {userMapped : Nat → Bool}
    {before : Machine} {cpu0 killedFirst killedSecond : Bool}
    {kernelEsp : Word} {proc : TrapProc}
    (interruptible : Interruptible thread userMapped before)
    (running : proc.state = .running) (registered : proc.scheduler ≠ 0) :
    let handled := TrapRun.trapTimer cpu0 killedFirst killedSecond userMapped
      ⟨alltraps before timerTrapno kernelEsp, before.mem, some proc, [], false⟩
    trapret handled.tf handled.mem =
      { before.push before.eip with eip := proc.scheduler } := by
  have redirect : TrapRun.wantsRedirect
      ⟨alltraps before timerTrapno kernelEsp, before.mem, some proc, [],
        false⟩ = some proc :=
    if_pos ⟨running, (by decide : userCs &&& 3 = dplUser), registered⟩
  obtain ⟨tfEq, memEq⟩ := TrapRun.trapTimer_of_redirect cpu0
    killedFirst killedSecond redirect
    (copyoutWord_of_interruptible interruptible)
  intro handled
  rw [show handled.tf = _ from tfEq, show handled.mem = _ from memEq]
  rfl

/-- Whatever switches follow the redirect, the program counter, the stack
pointer, the callee-saved registers and the stack come back. -/
theorem resumes_preserved {globals : SwitchGlobals} {thread : UserThread}
    {userMapped : Nat → Bool} {before after : Machine}
    (placed : Placed globals thread)
    (interruptible : Interruptible thread userMapped before)
    (resumes : Resumes globals thread userMapped before after) :
    Preserved thread before after := by
  obtain ⟨code, cpu0, killedFirst, killedSecond, kernelEsp, proc, handled,
    running, registered, rfl, _, call⟩ := resumes
  have returned := scheduleCall_returnsTo placed call
  rw [trapret_of_redirect interruptible running registered] at returned
  have above := interruptible.above
  have lower : (before.push before.eip).esp.toNat = before.esp.toNat - 4 :=
    Machine.push_esp_toNat _ above
  refine ⟨?_, ?_, returned.ebx, returned.esi, returned.edi, returned.ebp, ?_⟩
  · rw [returned.eip]
    exact Machine.push_topOfStack before.eip above
  · rw [returned.esp]
    exact BitVec.sub_add_cancel _ _
  · intro k low high
    rw [returned.stack k (by change (before.push before.eip).esp.toNat + 4 ≤ k; omega) high]
    exact Machine.push_mem_of_outside before.eip above (.inr low)

/-- The calling convention alone: any state in which the call has returned. -/
def conventionOnly (thread : UserThread) : ScheduleCode thread where
  noSwitch := ReturnsTo thread
  toSwitch := fun _ _ => False
  fromSwitch := fun _ _ _ => False
  noSwitch_returns := id
  toSwitch_room := False.elim
  fromSwitch_returns := fun called => called.elim

/-- The thread back at the interrupted instruction, with the registers that
the callee may clobber changed. -/
def clobbered (before : Machine) : Machine :=
  let entry := before.push before.eip
  { entry with
    eip := entry.topOfStack
    esp := entry.esp + 4
    eax := before.eax + 1
    ecx := before.ecx + 1
    edx := before.edx + 1
    eflags := before.eflags + 1 }

/-- The clobbered state is a possible outcome of every redirect. -/
theorem resumes_clobbered (globals : SwitchGlobals) {thread : UserThread}
    {userMapped : Nat → Bool} {before : Machine}
    (interruptible : Interruptible thread userMapped before) :
    Resumes globals thread userMapped before (clobbered before) := by
  let proc : TrapProc := ⟨.running, false, 1⟩
  have redirected (calls : List TrapCall) : TrapRun.wantsRedirect
      ⟨alltraps before timerTrapno 0, before.mem, some proc, calls, false⟩ =
        some proc :=
    if_pos ⟨rfl, (by decide : userCs &&& 3 = dplUser), by decide⟩
  refine ⟨conventionOnly thread, false, false, false, 0, proc, _, rfl,
    by decide, rfl, ?_, ?_⟩
  · have copied := copyoutWord_of_interruptible interruptible
    simp only [TrapRun.trapTimer, TrapRun.commonTail, TrapRun.timerCase,
      TrapRun.call, Bool.false_eq_true, if_false, redirected]
    rw [show copyoutWord userMapped before.mem
      ((alltraps before timerTrapno 0).esp - 4)
      (alltraps before timerTrapno 0).eip = _ from copied]
    rfl
  · rw [trapret_of_redirect interruptible rfl (by decide)]
    exact .stays ⟨rfl, rfl, rfl, rfl, rfl, rfl, fun _ _ _ => rfl⟩

theorem not_transparent_clobbered (thread : UserThread) (before : Machine) :
    ¬ Transparent thread before (clobbered before) := by
  intro transparent
  have same : before.eax + 1 = before.eax := transparent.eax
  bv_omega

/-- At no machine state is preemption transparent: the callee-saved part of
the context always comes back, and the rest need not. -/
theorem preemption_never_transparent {globals : SwitchGlobals}
    {thread : UserThread} {userMapped : Nat → Bool} {before : Machine}
    (placed : Placed globals thread)
    (interruptible : Interruptible thread userMapped before) :
    (∀ after, Resumes globals thread userMapped before after →
        Preserved thread before after) ∧
      ¬ ∀ after, Resumes globals thread userMapped before after →
        Transparent thread before after :=
  ⟨fun _ => resumes_preserved placed interruptible,
    fun all => not_transparent_clobbered thread before
      (all _ (resumes_clobbered globals interruptible))⟩

/-- The variables of the linked program. -/
def linkedGlobals : SwitchGlobals := ⟨0x90ec, 0x90f0⟩

/-- Thread 1 of the linked program: its entry is `&all_thread[1]`. -/
def linkedThread : UserThread where
  low := 0x30cc
  top := 0x50cc
  entry := 0x30c8
  top_le := by decide

/-- Thread 1 interrupted with 128 bytes on its stack. -/
def interrupted : Machine where
  eax := 7
  ecx := 0
  edx := 0
  ebx := 0
  esp := 0x504c
  ebp := 0
  esi := 0
  edi := 0
  eip := 0x2a8
  eflags := 0x202
  mem := fun _ => 0

theorem linked_placed : Placed linkedGlobals linkedThread := by
  constructor <;>
    simp [linkedGlobals, linkedThread, WordFits, WordsApart,
      UserThread.Outside]

theorem interrupted_interruptible :
    Interruptible linkedThread (fun page => page < 0x10) interrupted := by
  constructor <;> simp [linkedThread, interrupted]

theorem interrupted_never_transparent :
    (∀ after, Resumes linkedGlobals linkedThread (fun page => page < 0x10)
        interrupted after → Preserved linkedThread interrupted after) ∧
      ¬ ∀ after, Resumes linkedGlobals linkedThread
        (fun page => page < 0x10) interrupted after →
        Transparent linkedThread interrupted after :=
  preemption_never_transparent linked_placed interrupted_interruptible

/-- `eax` holds 7 at the interrupt and 8 when control is back. -/
theorem eax_lost_after_preemption :
    ∃ after, Resumes linkedGlobals linkedThread (fun page => page < 0x10)
        interrupted after ∧ after.eip = interrupted.eip ∧
      after.eax ≠ interrupted.eax ∧
      ¬ Transparent linkedThread interrupted after := by
  have resumes := resumes_clobbered linkedGlobals
    interrupted_interruptible
  exact ⟨_, resumes,
    (resumes_preserved linked_placed interrupted_interruptible resumes).eip,
    by decide, not_transparent_clobbered linkedThread interrupted⟩

end Xv6
