import Xv6.ProcTable
import Xv6.UserMachine

/-!
# The timer interrupt

`alltraps` saves the interrupted registers in a trap frame, `trap` handles the
interrupt, and `trapret` restores the registers from the frame.  The timer
case of `trap` either redirects the process to its registered user scheduler
or gives up the CPU; the common tail after the `switch` follows in both cases.
The segment registers other than `cs` never change and are left out.
-/

namespace Xv6

open ByteFields

/-- The fields of `struct proc` that the timer case reads or writes. -/
structure TrapProc where
  state : ProcState
  killed : Bool
  scheduler : Word
  deriving DecidableEq, Repr

/-- `struct trapframe`, without the segment registers other than `cs`. -/
structure TrapFrame where
  edi : Word
  esi : Word
  ebp : Word
  oesp : Word
  ebx : Word
  edx : Word
  ecx : Word
  eax : Word
  trapno : Word
  err : Word
  eip : Word
  cs : Word
  eflags : Word
  esp : Word
  deriving DecidableEq, Repr

/-- `T_IRQ0 + IRQ_TIMER`. -/
def timerTrapno : Word := 32

/-- `DPL_USER`. -/
def dplUser : Word := 3

/-- `(SEG_UCODE << 3) | DPL_USER`. -/
def userCs : Word := 0x1b

/-- The hardware, the vector and `alltraps` build the frame; `pushal` pushes
the kernel stack pointer as `oesp`, which nobody reads. -/
def alltraps (m : Machine) (trapno kernelEsp : Word) : TrapFrame where
  edi := m.edi
  esi := m.esi
  ebp := m.ebp
  oesp := kernelEsp
  ebx := m.ebx
  edx := m.edx
  ecx := m.ecx
  eax := m.eax
  trapno := trapno
  err := 0
  eip := m.eip
  cs := userCs
  eflags := m.eflags
  esp := m.esp

/-- `popal` skips `oesp`; `iret` restores `eip`, `eflags` and `esp`. -/
def trapret (tf : TrapFrame) (mem : UserMemory) : Machine where
  eax := tf.eax
  ecx := tf.ecx
  edx := tf.edx
  ebx := tf.ebx
  esp := tf.esp
  ebp := tf.ebp
  esi := tf.esi
  edi := tf.edi
  eip := tf.eip
  eflags := tf.eflags
  mem := mem

/-- The calls `trap` makes that other processes can observe. -/
inductive TrapCall where
  | wakeupTicks
  | lapiceoi
  | yield
  | exit
  deriving DecidableEq, Repr

/-- The state that the statements of `trap` act on.  `exited` is set by
`exit`, which does not return. -/
structure TrapRun where
  tf : TrapFrame
  mem : UserMemory
  proc : Option TrapProc
  calls : List TrapCall
  exited : Bool

/-- `copyout` of one word, as the process sees its own memory: both pages of
the word must be mapped with `PTE_U`.  A process whose `copyout` failed is
killed before it runs again, so nothing is said about its memory. -/
def copyoutWord (userMapped : Nat → Bool) (mem : UserMemory)
    (address value : Word) : Option UserMemory :=
  if address.toNat + 4 ≤ 2 ^ 32 ∧ userMapped (address.toNat / 4096) ∧
      userMapped ((address.toNat + 3) / 4096) then
    some (store mem address value)
  else none

namespace TrapRun

def call (r : TrapRun) (c : TrapCall) : TrapRun :=
  { r with calls := r.calls ++ [c] }

/-- `exit()` -/
def exit (r : TrapRun) : TrapRun := { r.call .exit with exited := true }

/-- `yield()`: when it returns the process is `RUNNING` again and may have
been killed meanwhile. -/
def yield (killedMeanwhile : Bool) (r : TrapRun) : TrapRun :=
  { r.call .yield with proc := r.proc.map fun p =>
      { p with state := .running, killed := p.killed || killedMeanwhile } }

/-- `p && p->killed && (tf->cs & 3) == DPL_USER` -/
def killedInUser (r : TrapRun) : Bool :=
  match r.proc with
  | some p => p.killed && (r.tf.cs &&& 3) == dplUser
  | none => false

/-- `p && p->state == RUNNING && tf->trapno == T_IRQ0 + IRQ_TIMER` -/
def runningAtTick (r : TrapRun) : Bool :=
  match r.proc with
  | some p => p.state == .running && r.tf.trapno == timerTrapno
  | none => false

def exitIfKilled (r : TrapRun) : TrapRun :=
  if r.exited then r else if r.killedInUser then r.exit else r

def yieldIfRunning (killedMeanwhile : Bool) (r : TrapRun) : TrapRun :=
  if r.exited then r
  else if r.runningAtTick then r.yield killedMeanwhile else r

/-- The test for the redirect: a `RUNNING` process interrupted in user mode
with a registered scheduler. -/
def wantsRedirect (r : TrapRun) : Option TrapProc :=
  match r.proc with
  | some p =>
      if p.state = .running ∧ r.tf.cs &&& 3 = dplUser ∧ p.scheduler ≠ 0 then
        some p
      else none
  | none => none

/-- The timer case, up to its `break`.  `cpu0` is `cpuid() == 0`, and
`killedMeanwhile` says whether the process is killed while it yields. -/
def timerCase (cpu0 killedMeanwhile : Bool) (userMapped : Nat → Bool)
    (r : TrapRun) : TrapRun :=
  let r := if cpu0 then r.call .wakeupTicks else r
  let r := r.call .lapiceoi
  match r.wantsRedirect with
  | some p =>
      let userEsp := r.tf.esp - 4
      match copyoutWord userMapped r.mem userEsp r.tf.eip with
      | some mem => exitIfKilled
          { r with mem := mem
                   tf := { r.tf with esp := userEsp, eip := p.scheduler } }
      | none =>
          let r := { r with proc := some { p with killed := true } }
          (r.yieldIfRunning killedMeanwhile).exitIfKilled
  | none => (r.yieldIfRunning killedMeanwhile).exitIfKilled

/-- The statements of `trap` after the `switch`. -/
def commonTail (killedMeanwhile : Bool) (r : TrapRun) : TrapRun :=
  ((r.exitIfKilled).yieldIfRunning killedMeanwhile).exitIfKilled

/-- `trap` for the timer interrupt. -/
def trapTimer (cpu0 killedFirst killedSecond : Bool)
    (userMapped : Nat → Bool) (r : TrapRun) : TrapRun :=
  (r.timerCase cpu0 killedFirst userMapped).commonTail killedSecond

@[simp]
theorem exitIfKilled_tf (r : TrapRun) : r.exitIfKilled.tf = r.tf := by
  unfold exitIfKilled
  split
  · rfl
  · split <;> rfl

@[simp]
theorem exitIfKilled_mem (r : TrapRun) : r.exitIfKilled.mem = r.mem := by
  unfold exitIfKilled
  split
  · rfl
  · split <;> rfl

@[simp]
theorem yieldIfRunning_tf (killedMeanwhile : Bool) (r : TrapRun) :
    (r.yieldIfRunning killedMeanwhile).tf = r.tf := by
  unfold yieldIfRunning
  split
  · rfl
  · split <;> rfl

@[simp]
theorem yieldIfRunning_mem (killedMeanwhile : Bool) (r : TrapRun) :
    (r.yieldIfRunning killedMeanwhile).mem = r.mem := by
  unfold yieldIfRunning
  split
  · rfl
  · split <;> rfl

/-- On the redirect path only the user stack pointer and the program counter
of the frame change, and the interrupted program counter is stored below the
user stack. -/
theorem trapTimer_of_redirect (cpu0 killedFirst killedSecond : Bool)
    {userMapped : Nat → Bool} {r : TrapRun} {p : TrapProc} {mem : UserMemory}
    (redirect : r.wantsRedirect = some p)
    (copied : copyoutWord userMapped r.mem (r.tf.esp - 4) r.tf.eip = some mem) :
    (r.trapTimer cpu0 killedFirst killedSecond userMapped).tf =
        { r.tf with esp := r.tf.esp - 4, eip := p.scheduler } ∧
      (r.trapTimer cpu0 killedFirst killedSecond userMapped).mem = mem := by
  have redirected (calls : List TrapCall) :
      ({ r with calls := calls } : TrapRun).wantsRedirect = some p := redirect
  cases cpu0 <;>
    simp only [trapTimer, commonTail, timerCase, call, redirected, copied,
      exitIfKilled_tf, exitIfKilled_mem, yieldIfRunning_tf,
      yieldIfRunning_mem, and_self, if_true, if_false, Bool.false_eq_true]

end TrapRun

end Xv6
