import Mathlib.Logic.Function.Basic
import Xv6.LabelledRuns
import Xv6.ProcTable
import Xv6.RingBuffer

/-!
# Pipes

One pipe of `pipe.c` and the processes that use it, at the granularity of loop
iterations under `p->lock`.  A process inside `pipewrite`, `piperead` or
`pipeclose` is a program counter with the local variables of the call;
`wakeup`, `kill` and the part of `sleep` before `sched` are single steps, as
they run under `ptable.lock`.  The files of the two ends are counted by the
processes that have a descriptor for them: `fileclose` calls `pipeclose` when
the last one is closed.
-/

namespace Xv6.Pipes

open RingBuffer

/-- `PIPESIZE` -/
abbrev pipesize : Nat := 512

/-- The channels `&p->nread` and `&p->nwrite`. -/
inductive PipeChan where
  | nread
  | nwrite
  deriving DecidableEq, Repr

/-- The two files of a pipe. -/
inductive PipeEnd where
  | reading
  | writing
  deriving DecidableEq, Repr

/-- `struct pipe`; `lock` is the process that holds the lock. -/
structure Pipe (slots : Nat) where
  lock : Option (Fin slots)
  data : Fin pipesize → UInt8
  nread : BitVec 32
  nwrite : BitVec 32
  readopen : Bool
  writeopen : Bool

inductive WritePc where
  /-- `acquire(&p->lock)` -/
  | acquire
  /-- the loop tests, the store to `p->data`, and the early return -/
  | loop
  /-- `wakeup(&p->nread)` inside the loop -/
  | wakeReaders
  /-- `sleep(&p->nwrite, &p->lock)` up to `sched` -/
  | sleep
  /-- `p->chan = 0` in `sleep` -/
  | woken
  /-- `acquire(lk)` in `sleep` -/
  | reacquire
  /-- `wakeup(&p->nread)` after the loop -/
  | wake
  /-- `release(&p->lock); return n` -/
  | release
  deriving DecidableEq, Repr

inductive ReadPc where
  /-- `acquire(&p->lock)` -/
  | acquire
  /-- the first loop's tests and the early return -/
  | empty
  /-- `sleep(&p->nread, &p->lock)` up to `sched` -/
  | sleep
  /-- `p->chan = 0` in `sleep` -/
  | woken
  /-- `acquire(lk)` in `sleep` -/
  | reacquire
  /-- an iteration of the second loop -/
  | copy
  /-- `wakeup(&p->nwrite)` -/
  | wake
  /-- `release(&p->lock); return i` -/
  | release
  deriving DecidableEq, Repr

inductive ClosePc where
  /-- `acquire(&p->lock)` -/
  | acquire
  /-- the store to `p->writeopen` or `p->readopen` -/
  | clear
  /-- the `wakeup` -/
  | wake
  /-- `release(&p->lock)`, and `kfree` when both ends are closed -/
  | release
  deriving DecidableEq, Repr

/-- A call of `pipewrite` with its arguments and its loop variable. -/
structure WriteCall where
  addr : Nat → UInt8
  n : Int
  i : Nat

/-- A call of `piperead`; `got` is what it has stored in `addr`, of length
`i`. -/
structure ReadCall where
  n : Int
  got : List UInt8

/-- Where a process stands. -/
inductive Call where
  | outside
  | write (pc : WritePc) (call : WriteCall)
  | read (pc : ReadPc) (call : ReadCall)
  | close (pc : ClosePc) (file : PipeEnd)

def Call.isOutside : Call → Bool
  | .outside => true
  | _ => false

/-- The pipe and the processes.  `stored` and `handed` record the bytes that
writers have put in and readers have taken out, in the order of the steps. -/
structure System (slots : Nat) where
  ptable : ProcTable slots PipeChan
  pipe : Pipe slots
  freed : Bool
  files : PipeEnd → List (Fin slots)
  call : Fin slots → Call
  returned : Fin slots → Int
  stored : List UInt8
  handed : List UInt8

variable {slots : Nat}

/-- `p->nwrite == p->nread + PIPESIZE` -/
def Pipe.Full (pipe : Pipe slots) : Prop :=
  pipe.nwrite = pipe.nread + BitVec.ofNat 32 pipesize

/-- `p->nread == p->nwrite` -/
def Pipe.Empty (pipe : Pipe slots) : Prop :=
  pipe.nread = pipe.nwrite

instance (pipe : Pipe slots) : Decidable pipe.Full :=
  inferInstanceAs (Decidable (_ = _))

instance (pipe : Pipe slots) : Decidable pipe.Empty :=
  inferInstanceAs (Decidable (_ = _))

/-- `p->data[p->nwrite++ % PIPESIZE] = value` -/
def Pipe.put (pipe : Pipe slots) (value : UInt8) : Pipe slots :=
  { pipe with
    data := Function.update pipe.data (cell pipesize pipe.nwrite) value
    nwrite := pipe.nwrite + 1#32 }

/-- `p->data[p->nread++ % PIPESIZE]`: the value -/
def Pipe.front (pipe : Pipe slots) : UInt8 :=
  pipe.data (cell pipesize pipe.nread)

/-- `p->data[p->nread++ % PIPESIZE]`: the effect -/
def Pipe.advance (pipe : Pipe slots) : Pipe slots :=
  { pipe with nread := pipe.nread + 1#32 }

/-- The bytes in the buffer, the oldest first. -/
def Pipe.contents (pipe : Pipe slots) : List UInt8 :=
  RingBuffer.contents pipe.data pipe.nread pipe.nwrite

/-- `p->writeopen = 0` or `p->readopen = 0` -/
def Pipe.shut (pipe : Pipe slots) : PipeEnd → Pipe slots
  | .writing => { pipe with writeopen := false }
  | .reading => { pipe with readopen := false }

/-- The channel that `pipeclose` wakes up. -/
def PipeEnd.waiters : PipeEnd → PipeChan
  | .writing => .nread
  | .reading => .nwrite

namespace System

def goto (s : System slots) (p : Fin slots) (call : Call) : System slots :=
  { s with call := Function.update s.call p call }

def setLock (s : System slots) (lock : Option (Fin slots)) : System slots :=
  { s with pipe := { s.pipe with lock := lock } }

def wakeup (s : System slots) (chan : PipeChan) : System slots :=
  { s with ptable := s.ptable.wakeup1 chan }

/-- `acquire(&p->lock)`; not enabled while the lock is held. -/
def acquire (s : System slots) (p : Fin slots) (next : Call) :
    Option (System slots) :=
  if s.pipe.lock = none then some ((s.setLock (some p)).goto p next) else none

/-- `sleep(chan, &p->lock)` up to `sched`. -/
def sleep (s : System slots) (p : Fin slots) (chan : PipeChan) (next : Call) :
    System slots :=
  { s.setLock none with ptable := s.ptable.fallAsleep p chan }.goto p next

/-- `release(&p->lock)` and the return of a value. -/
def leave (s : System slots) (p : Fin slots) (value : Int) : System slots :=
  { (s.setLock none).goto p .outside with
    returned := Function.update s.returned p value }

/-- One step of `pipewrite`. -/
def pipewrite (s : System slots) (p : Fin slots) (c : WriteCall) :
    WritePc → Option (System slots)
  | .acquire => s.acquire p (.write .loop c)
  | .loop =>
      if (c.i : Int) < c.n then
        if s.pipe.Full then
          if s.pipe.readopen = false ∨ (s.ptable p).killed = true then
            some (s.leave p (-1))
          else some (s.goto p (.write .wakeReaders c))
        else
          some
            { s.goto p (.write .loop { c with i := c.i + 1 }) with
              pipe := s.pipe.put (c.addr c.i)
              stored := s.stored ++ [c.addr c.i] }
      else some (s.goto p (.write .wake c))
  | .wakeReaders => some ((s.wakeup .nread).goto p (.write .sleep c))
  | .sleep => some (s.sleep p .nwrite (.write .woken c))
  | .woken =>
      some ({ s with ptable := s.ptable.tidyUp p }.goto p (.write .reacquire c))
  | .reacquire => s.acquire p (.write .loop c)
  | .wake => some ((s.wakeup .nread).goto p (.write .release c))
  | .release => some (s.leave p c.n)

/-- One step of `piperead`. -/
def piperead (s : System slots) (p : Fin slots) (c : ReadCall) :
    ReadPc → Option (System slots)
  | .acquire => s.acquire p (.read .empty c)
  | .empty =>
      if s.pipe.Empty ∧ s.pipe.writeopen = true then
        if (s.ptable p).killed = true then some (s.leave p (-1))
        else some (s.goto p (.read .sleep c))
      else some (s.goto p (.read .copy c))
  | .sleep => some (s.sleep p .nread (.read .woken c))
  | .woken =>
      some ({ s with ptable := s.ptable.tidyUp p }.goto p (.read .reacquire c))
  | .reacquire => s.acquire p (.read .empty c)
  | .copy =>
      if (c.got.length : Int) < c.n ∧ ¬ s.pipe.Empty then
        some
          { s.goto p (.read .copy { c with got := c.got ++ [s.pipe.front] }) with
            pipe := s.pipe.advance
            handed := s.handed ++ [s.pipe.front] }
      else some (s.goto p (.read .wake c))
  | .wake => some ((s.wakeup .nwrite).goto p (.read .release c))
  | .release => some (s.leave p c.got.length)

/-- One step of `pipeclose`. -/
def pipeclose (s : System slots) (p : Fin slots) (file : PipeEnd) :
    ClosePc → Option (System slots)
  | .acquire => s.acquire p (.close .clear file)
  | .clear =>
      some ({ s with pipe := s.pipe.shut file }.goto p (.close .wake file))
  | .wake => some ((s.wakeup file.waiters).goto p (.close .release file))
  | .release =>
      if s.pipe.readopen = false ∧ s.pipe.writeopen = false then
        some { s.leave p 0 with freed := true }
      else some (s.leave p 0)

end System

/-- What happens next.  `other` is anything that the kernel does with a process
outside these calls: it may sleep elsewhere, exit, or make room for another. -/
inductive Label (slots : Nat) where
  | write (p : Fin slots) (addr : Nat → UInt8) (n : Int)
  | read (p : Fin slots) (n : Int)
  | filedup (p q : Fin slots) (file : PipeEnd)
  | fileclose (p : Fin slots) (file : PipeEnd)
  | kill (pid : BitVec 32)
  | dispatch (p : Fin slots)
  | preempt (p : Fin slots)
  | other (p : Fin slots) (proc : Proc slots PipeChan)
  | run (p : Fin slots)

namespace System

/-- The process runs outside the calls. -/
def Idle (s : System slots) (p : Fin slots) : Prop :=
  (s.ptable p).state = .running ∧ (s.call p).isOutside = true

instance (s : System slots) (p : Fin slots) : Decidable (s.Idle p) :=
  inferInstanceAs (Decidable (_ ∧ _))

def setFiles (s : System slots) (file : PipeEnd) (refs : List (Fin slots)) :
    System slots :=
  { s with files := Function.update s.files file refs }

/-- One step of the process inside its call. -/
def runCall (s : System slots) (p : Fin slots) : Option (System slots) :=
  match s.call p with
  | .outside => none
  | .write pc c => s.pipewrite p c pc
  | .read pc c => s.piperead p c pc
  | .close pc file => s.pipeclose p file pc

/-- One step. -/
def step (s : System slots) : Label slots → Option (System slots)
  | .write p addr n =>
      if s.Idle p ∧ p ∈ s.files .writing then
        some (s.goto p (.write .acquire ⟨addr, n, 0⟩))
      else none
  | .read p n =>
      if s.Idle p ∧ p ∈ s.files .reading then
        some (s.goto p (.read .acquire ⟨n, []⟩))
      else none
  | .filedup p q file =>
      if s.Idle p ∧ p ∈ s.files file ∧ (s.call q).isOutside = true then
        some (s.setFiles file (q :: s.files file))
      else none
  | .fileclose p file =>
      if s.Idle p ∧ p ∈ s.files file then
        let refs := (s.files file).erase p
        if refs = [] then
          some ((s.setFiles file refs).goto p (.close .acquire file))
        else some (s.setFiles file refs)
      else none
  | .kill pid => some { s with ptable := (s.ptable.kill pid).1 }
  | .dispatch p =>
      if (s.ptable p).state = .runnable then
        some { s with ptable := s.ptable.setState p .running }
      else none
  | .preempt p =>
      if (s.ptable p).state = .running ∧ s.pipe.lock ≠ some p then
        some { s with ptable := s.ptable.setState p .runnable }
      else none
  | .other p proc =>
      if (s.call p).isOutside = true ∧ proc.chan = none then
        some { s with ptable := Function.update s.ptable p proc }
      else none
  | .run p => if (s.ptable p).state = .running then s.runCall p else none

/-- A pipe that `pipealloc` has just made, with a descriptor of each end in one
process, and any process table in which nobody waits for the pipe. -/
structure Start (s : System slots) : Prop where
  lock : s.pipe.lock = none
  nread : s.pipe.nread = 0
  nwrite : s.pipe.nwrite = 0
  readopen : s.pipe.readopen = true
  writeopen : s.pipe.writeopen = true
  freed : s.freed = false
  files : ∃ p, ∀ file, s.files file = [p]
  call : ∀ p, s.call p = .outside
  chan : ∀ p, (s.ptable p).chan = none
  stored : s.stored = []
  handed : s.handed = []

local instance twoProcesses_neZero : NeZero 2 := ⟨by decide⟩

/-- Two processes, of which the first has just made the pipe. -/
def twoProcesses : System 2 where
  ptable := fun p =>
    ⟨.running, BitVec.ofNat 32 (p.val + 1), none, none, false, none, 0⟩
  pipe := ⟨none, fun _ => 0, 0, 0, true, true⟩
  freed := false
  files := fun _ => [0]
  call := fun _ => .outside
  returned := fun _ => 0
  stored := []
  handed := []

theorem twoProcesses_start : twoProcesses.Start where
  lock := rfl
  nread := rfl
  nwrite := rfl
  readopen := rfl
  writeopen := rfl
  freed := rfl
  files := ⟨0, fun _ => rfl⟩
  call _ := rfl
  chan _ := rfl
  stored := rfl
  handed := rfl

end System

end Xv6.Pipes
