import Xv6.LabelledRuns
import Xv6.ProcTable

/-!
# Processes, kernel stacks and CPUs

The functions of `proc.c` as any number of CPUs run them.  A kernel stack is a
page frame together with the statements that its thread still has to execute;
a CPU executes on its own stack, in `scheduler`, or on the kernel stack of a
process.  `ptable.lock` is held by a CPU, so it passes from one thread to
another when `swtch` changes stacks.  A statement is what the code does between
two points where another CPU can interfere: whole loops over the table run
under the lock in one step.  The other locks, open files and page tables are
left out.
-/

namespace Xv6.Procs

open LabelledRuns

/-- What a process sleeps on: a `struct proc`, as in `wait`, or anything else. -/
inductive Channel (slots : Nat) (Other : Type) where
  | proc (p : Fin slots)
  | other (chan : Other)
  deriving DecidableEq

/-- Statements of `proc.c`.  The process arguments are the local variables
`curproc`, `p` and `np`. -/
inductive Stmt (slots : Nat) (Other : Type) where
  /-- `acquire(&ptable.lock)` -/
  | acquire
  /-- `release(&ptable.lock)` -/
  | release
  /-- `yield`: `myproc()->state = RUNNABLE` -/
  | yieldState
  /-- `sched()` -/
  | sched
  /-- `sleep`: `p->chan = chan; p->state = SLEEPING` -/
  | fallAsleep (p : Fin slots) (chan : Other)
  /-- `sleep`: `p->chan = 0` -/
  | tidyUp (p : Fin slots)
  /-- `wakeup1(chan)` -/
  | wakeup1 (chan : Channel slots Other)
  /-- the loop of `kill` -/
  | killScan (pid : BitVec 32)
  /-- `exit`, from `wakeup1(curproc->parent)` to `curproc->state = ZOMBIE` -/
  | exitScan (p : Fin slots)
  /-- one round of the loop of `wait` -/
  | waitScan (p : Fin slots)
  /-- `allocproc`: the loop and the part after `found` -/
  | allocScan (p : Fin slots)
  /-- `allocproc`: `p->kstack = kalloc()` -/
  | kallocStack (p np : Fin slots)
  /-- `fork`: `np->pgdir = copyuvm(..)` -/
  | copyuvm (p np : Fin slots)
  /-- `fork`: `np->parent = curproc` -/
  | setParent (p np : Fin slots)
  /-- `fork`: `np->state = RUNNABLE` -/
  | startChild (np : Fin slots)

/-- Where `scheduler` stands on a CPU: before `acquire`, in its loop at an
entry of the table, or behind the `swtch` to the process of an entry. -/
inductive SchedPoint where
  | idle
  | scan (i : Nat)
  | switched (i : Nat)
  deriving DecidableEq

/-- `struct cpu`.  `stack` is the frame of the kernel stack on which the CPU
executes, or `none` on the stack of its scheduler. -/
structure Cpu (slots : Nat) where
  proc : Option (Fin slots)
  stack : Option Nat
  point : SchedPoint

/-- What a page frame is used for. -/
inductive FrameUse where
  | free
  | kstack
  | other
  deriving DecidableEq

/-- What the properties below speak about. -/
inductive Event where
  /-- `kill` has returned; `live` says whether an entry in use had that pid -/
  | kill (pid : BitVec 32) (result : Int) (live : Bool)
  /-- `fork` has made its child `RUNNABLE`; `called` says whether `kill` was
  called with the pid of the child since the child got it -/
  | started (killed called : Bool)
  /-- `wait` has returned the pid of a process -/
  | reaped (process : Nat) (pid : BitVec 32)
  /-- a tick has set the program counter of a process; `own` says whether its
  program has registered that address -/
  | redirected (address : BitVec 32) (own : Bool)
  deriving DecidableEq

/-- The past of the entries of the table.  Every process gets a number of its
own when `allocproc` takes an entry for it. -/
structure Past (slots : Nat) where
  /-- the number of processes so far -/
  count : Nat
  /-- the number of the process in an entry -/
  process : Fin slots → Nat
  /-- the number of the process that forked the process in an entry -/
  creator : Fin slots → Nat
  /-- the entry of the process whose `fork` has allocated an entry -/
  forker : Fin slots → Option (Fin slots)
  /-- the process has exited -/
  exited : Nat → Bool
  /-- `kill` was called with the pid of the process in an entry -/
  called : Fin slots → Bool
  /-- the arguments of `uthread_init` since the last `exec`, or since the
  process exists -/
  registered : Fin slots → List (BitVec 32)
  events : List Event

/-- The state of the kernel.  `context` is the frame that `p->context` points
into, and `thread` gives what is left to do on a kernel stack; a thread with
nothing left is in user code or in another part of the kernel. -/
structure System (slots cpus : Nat) (Other : Type) where
  ptable : ProcTable slots (Channel slots Other)
  initproc : Fin slots
  nextpid : BitVec 32
  lock : Option (Fin cpus)
  cpu : Fin cpus → Cpu slots
  context : Fin slots → Option Nat
  thread : Nat → List (Stmt slots Other)
  frame : Nat → FrameUse
  past : Past slots

/-- A call into `proc.c` by a process. -/
inductive Call (Other : Type) where
  | fork
  | exit
  | wait
  | kill (pid : BitVec 32)
  | sleep (chan : Other)

def Call.isExit {Other : Type} : Call Other → Bool
  | .exit => true
  | _ => false

/-- What a CPU does next, or another user of `kalloc.c`. -/
inductive Label (cpus : Nat) (Other : Type) where
  /-- the process calls a function -/
  | call (c : Fin cpus) (call : Call Other)
  /-- the timer interrupts user or kernel code; `copied` says whether the
  `copyout` of a redirect succeeds -/
  | tick (c : Fin cpus) (user copied : Bool)
  /-- the process or an interrupt handler calls `wakeup` -/
  | wakeup (c : Fin cpus) (chan : Other)
  /-- a trap by which the process kills itself -/
  | fault (c : Fin cpus)
  /-- `uthread_init` -/
  | uthreadInit (c : Fin cpus) (address : BitVec 32)
  /-- an `exec` that succeeds -/
  | exec (c : Fin cpus)
  /-- `kalloc` and `kfree` by the rest of the kernel -/
  | takeFrame (frame : Nat)
  | returnFrame (frame : Nat)
  /-- the next statement; `frame` is the result of its `kalloc`, and tells
  whether its `copyuvm` succeeds -/
  | run (c : Fin cpus) (frame : Option Nat)

section

variable {slots : Nat} {Other : Type} [DecidableEq Other]

/-- One round of the loop of `exit` that passes the children of `p` to init. -/
def reparentEntry (p init : Fin slots)
    (t : ProcTable slots (Channel slots Other)) (q : Fin slots) :
    ProcTable slots (Channel slots Other) :=
  if (t q).parent = some p then
    let t' : ProcTable slots (Channel slots Other) :=
      Function.update t q { t q with parent := some init }
    if (t q).state = .zombie then t'.wakeup1 (.proc init) else t'
  else t

def reparent (p init : Fin slots) (t : ProcTable slots (Channel slots Other)) :
    ProcTable slots (Channel slots Other) :=
  (List.finRange slots).foldl (reparentEntry p init) t

/-- `wakeup1(curproc->parent)`; nobody sleeps on a null pointer. -/
def wakeParent (p : Fin slots) (t : ProcTable slots (Channel slots Other)) :
    ProcTable slots (Channel slots Other) :=
  match (t p).parent with
  | some r => t.wakeup1 (.proc r)
  | none => t

/-- `exit` under the lock, before `sched`. -/
def exitTable (p init : Fin slots) (t : ProcTable slots (Channel slots Other)) :
    ProcTable slots (Channel slots Other) :=
  (reparent p init (wakeParent p t)).setState p .zombie

/-- The first exited child, as the loop of `wait` finds it. -/
def zombieChild (p : Fin slots) (t : ProcTable slots (Channel slots Other)) :
    Option (Fin slots) :=
  t.first fun proc => proc.parent = some p ∧ proc.state = .zombie

/-- `havekids` of `wait`, when the loop has found no exited child. -/
def haveKids (p : Fin slots) (t : ProcTable slots (Channel slots Other)) : Bool :=
  (t.first fun proc => proc.parent = some p).isSome

/-- What `wait` leaves in the entry of the child that it returns. -/
def reapEntry (proc : Proc slots (Channel slots Other)) :
    Proc slots (Channel slots Other) :=
  { proc with
    kstack := none
    pid := 0
    parent := none
    killed := false
    state := .unused }

/-- What `allocproc` puts into the entry that it finds. -/
def embryoEntry (pid : BitVec 32) (proc : Proc slots (Channel slots Other)) :
    Proc slots (Channel slots Other) :=
  { proc with state := .embryo, pid := pid, scheduler := 0 }

/-- `yield()` -/
def yieldCode : List (Stmt slots Other) :=
  [.acquire, .yieldState, .sched, .release]

/-- `sleep(chan, lk)` with another lock than `ptable.lock` -/
def sleepCode (p : Fin slots) (chan : Other) : List (Stmt slots Other) :=
  [.acquire, .fallAsleep p chan, .sched, .tidyUp p, .release]

/-- `wakeup(chan)` -/
def wakeupCode (chan : Other) : List (Stmt slots Other) :=
  [.acquire, .wakeup1 (.other chan), .release]

/-- A new thread starts in `forkret`, holding the lock. -/
def forkretCode : List (Stmt slots Other) :=
  [.release]

/-- The code of a call by process `p`. -/
def Call.code (p : Fin slots) : Call Other → List (Stmt slots Other)
  | .fork => [.acquire, .allocScan p]
  | .exit => [.acquire, .exitScan p, .sched]
  | .wait => [.acquire, .waitScan p]
  | .kill pid => [.acquire, .killScan pid, .release]
  | .sleep chan => sleepCode p chan

end

section

variable {slots : Nat} {Other α : Type} [DecidableEq Other]
  {field : Proc slots (Channel slots Other) → α}

theorem keeps_wakeParent
    (ignores : ∀ proc state, field { proc with state := state } = field proc)
    (p : Fin slots) (t : ProcTable slots (Channel slots Other)) :
    ProcTable.Keeps field t (wakeParent p t) := by
  unfold wakeParent
  split
  · exact ProcTable.keeps_wakeup1 ignores _ _
  · exact .refl t

theorem keeps_reparent
    (ignores : ∀ proc state, field { proc with state := state } = field proc)
    (orphan : ∀ proc parent, field { proc with parent := parent } = field proc)
    (p init : Fin slots) (t : ProcTable slots (Channel slots Other)) :
    ProcTable.Keeps field t (reparent p init t) := by
  unfold reparent
  generalize List.finRange slots = entries
  induction entries generalizing t with
  | nil => exact .refl t
  | cons q entries ih =>
      refine ProcTable.Keeps.trans ?_ (ih (reparentEntry p init t q))
      have renamed : ProcTable.Keeps field t
          (Function.update t q { t q with parent := some init }) :=
        .update (orphan _ _)
      unfold reparentEntry
      split
      · dsimp only
        split
        · exact renamed.trans (ProcTable.keeps_wakeup1 ignores _ _)
        · exact renamed
      · exact .refl t

theorem keeps_exitTable
    (ignores : ∀ proc state, field { proc with state := state } = field proc)
    (orphan : ∀ proc parent, field { proc with parent := parent } = field proc)
    (p init : Fin slots) (t : ProcTable slots (Channel slots Other)) :
    ProcTable.Keeps field t (exitTable p init t) := by
  have woken := (keeps_wakeParent ignores p t).trans
    (keeps_reparent ignores orphan p init (wakeParent p t))
  exact woken.trans (.update (ignores _ _))

end

namespace System

variable {slots cpus : Nat} {Other : Type} [DecidableEq Other]

def setThread (s : System slots cpus Other) (f : Nat)
    (code : List (Stmt slots Other)) : System slots cpus Other :=
  { s with thread := Function.update s.thread f code }

def setProc (s : System slots cpus Other) (p : Fin slots)
    (proc : Proc slots (Channel slots Other)) : System slots cpus Other :=
  { s with ptable := Function.update s.ptable p proc }

def setCpu (s : System slots cpus Other) (c : Fin cpus) (cpu : Cpu slots) :
    System slots cpus Other :=
  { s with cpu := Function.update s.cpu c cpu }

def setFrame (s : System slots cpus Other) (f : Nat) (use : FrameUse) :
    System slots cpus Other :=
  { s with frame := Function.update s.frame f use }

def record (s : System slots cpus Other) (event : Event) :
    System slots cpus Other :=
  { s with past := { s.past with events := event :: s.past.events } }

/-- An entry in use has the pid. -/
def hasPid (s : System slots cpus Other) (pid : BitVec 32) : Bool :=
  (s.ptable.first fun proc => proc.state ≠ .unused ∧ proc.pid = pid).isSome

/-- The loop of `kill`. -/
def killScan (s : System slots cpus Other) (pid : BitVec 32) :
    System slots cpus Other :=
  { s with
    ptable := (s.ptable.kill pid).1
    past := { s.past with
      called := fun p => s.past.called p ||
        decide ((s.ptable p).state ≠ .unused ∧ (s.ptable p).pid = pid)
      events := .kill pid (s.ptable.kill pid).2 (s.hasPid pid) ::
        s.past.events } }

/-- `exit` under the lock, before `sched`. -/
def exitScan (s : System slots cpus Other) (p : Fin slots) :
    System slots cpus Other :=
  { s with
    ptable := exitTable p s.initproc s.ptable
    past := { s.past with
      exited := Function.update s.past.exited (s.past.process p) true } }

/-- `wait` frees the entry of child `q` and its kernel stack in frame `g`. -/
def reap (s : System slots cpus Other) (q : Fin slots) (g : Nat) :
    System slots cpus Other :=
  ((s.setProc q (reapEntry (s.ptable q))).setFrame g .free).record
    (.reaped (s.past.process q) (s.ptable q).pid)

/-- `allocproc`, called by process `p`, takes the entry `np`. -/
def allocate (s : System slots cpus Other) (p np : Fin slots) :
    System slots cpus Other :=
  { s.setProc np (embryoEntry s.nextpid (s.ptable np)) with
    nextpid := s.nextpid + 1
    past := { s.past with
      count := s.past.count + 1
      process := Function.update s.past.process np s.past.count
      forker := Function.update s.past.forker np (some p)
      called := Function.update s.past.called np false
      registered := Function.update s.past.registered np [] } }

/-- The failure paths of `allocproc` and `fork`. -/
def dropEmbryo (s : System slots cpus Other) (np : Fin slots) :
    System slots cpus Other :=
  s.setProc np { s.ptable np with kstack := none, state := .unused }

/-- `allocproc` sets up the kernel stack of `np` in frame `g`. -/
def giveStack (s : System slots cpus Other) (np : Fin slots) (g : Nat) :
    System slots cpus Other :=
  { ((s.setProc np { s.ptable np with kstack := some g }).setFrame g
      .kstack).setThread g forkretCode with
    context := Function.update s.context np (some g) }

/-- `np->parent = curproc` in `fork`. -/
def adopt (s : System slots cpus Other) (p np : Fin slots) :
    System slots cpus Other :=
  { s.setProc np { s.ptable np with parent := some p } with
    past := { s.past with
      creator := Function.update s.past.creator np (s.past.process p) } }

/-- The statement of a thread on frame `f`, run by CPU `c`, before the
statements `rest`.  `frame` is the result of `kalloc`.  Where the kernel
panics there is no next state. -/
def runStmt (s : System slots cpus Other) (c : Fin cpus) (f : Nat)
    (rest : List (Stmt slots Other)) (frame : Option Nat) :
    Stmt slots Other → Option (System slots cpus Other)
  | .acquire =>
      if s.lock = none then some { s.setThread f rest with lock := some c }
      else none
  | .release =>
      if s.lock = some c then some { s.setThread f rest with lock := none }
      else none
  | .yieldState =>
      (s.cpu c).proc.map fun p =>
        { s.setThread f rest with ptable := s.ptable.setState p .runnable }
  | .sched =>
      (s.cpu c).proc.bind fun p =>
        if s.lock = some c ∧ (s.ptable p).state ≠ .running then
          some { (s.setThread f rest).setCpu c { s.cpu c with stack := none } with
            context := Function.update s.context p (some f) }
        else none
  | .fallAsleep p chan =>
      some { s.setThread f rest with ptable := s.ptable.fallAsleep p (.other chan) }
  | .tidyUp p => some { s.setThread f rest with ptable := s.ptable.tidyUp p }
  | .wakeup1 chan =>
      some { s.setThread f rest with ptable := s.ptable.wakeup1 chan }
  | .killScan pid => some ((s.setThread f rest).killScan pid)
  | .exitScan p => some ((s.setThread f rest).exitScan p)
  | .waitScan p =>
      match zombieChild p s.ptable with
      | some q =>
          (s.ptable q).kstack.map fun g =>
            (s.setThread f (.release :: rest)).reap q g
      | none =>
          if haveKids p s.ptable = false ∨ (s.ptable p).killed then
            some (s.setThread f (.release :: rest))
          else
            some { s.setThread f (.sched :: .tidyUp p :: .waitScan p :: rest) with
              ptable := s.ptable.fallAsleep p (.proc p) }
  | .allocScan p =>
      match s.ptable.first fun proc => proc.state = .unused with
      | some np =>
          some ((s.setThread f (.release :: .kallocStack p np :: rest)).allocate
            p np)
      | none => some (s.setThread f (.release :: rest))
  | .kallocStack p np =>
      match frame with
      | some g =>
          if s.frame g = .free then
            some ((s.giveStack np g).setThread f (.copyuvm p np :: rest))
          else none
      | none => some ((s.setThread f rest).dropEmbryo np)
  | .copyuvm p np =>
      match frame with
      | some _ => some (s.setThread f (.setParent p np :: rest))
      | none =>
          (s.ptable np).kstack.map fun g =>
            ((s.setThread f rest).setFrame g .free).dropEmbryo np
  | .setParent p np =>
      some ((s.setThread f (.acquire :: .startChild np :: .release ::
        rest)).adopt p np)
  | .startChild np =>
      some { (s.setThread f rest).record
          (.started (s.ptable np).killed (s.past.called np)) with
        ptable := s.ptable.setState np .runnable }

/-- The next step of `scheduler` on CPU `c`. -/
def runScheduler (s : System slots cpus Other) (c : Fin cpus) :
    SchedPoint → Option (System slots cpus Other)
  | .idle =>
      if s.lock = none then
        some { s.setCpu c { s.cpu c with point := .scan 0 } with lock := some c }
      else none
  | .scan i =>
      if inside : i < slots then
        if (s.ptable ⟨i, inside⟩).state = .runnable then
          some { s.setCpu c
              { proc := some ⟨i, inside⟩
                stack := s.context ⟨i, inside⟩
                point := .switched i } with
            ptable := s.ptable.setState ⟨i, inside⟩ .running }
        else some (s.setCpu c { s.cpu c with point := .scan (i + 1) })
      else if s.lock = some c then
        some { s.setCpu c { s.cpu c with point := .idle } with lock := none }
      else none
  | .switched i =>
      some (s.setCpu c { s.cpu c with proc := none, point := .scan (i + 1) })

/-- The timer interrupt in a thread with the statements `code` left.  A process
interrupted in user code is redirected to its user scheduler, if it has one;
`yield` follows in every case, and twice if there was no redirect. -/
def tickThread (s : System slots cpus Other) (p : Fin slots) (f : Nat)
    (code : List (Stmt slots Other)) (user copied : Bool) :
    System slots cpus Other :=
  if user = true ∧ (s.ptable p).scheduler ≠ 0 then
    if copied then
      (s.setThread f (yieldCode ++ code)).record
        (.redirected (s.ptable p).scheduler
          (decide ((s.ptable p).scheduler ∈ s.past.registered p)))
    else
      (s.setThread f (yieldCode ++ yieldCode ++ code)).setProc p
        { s.ptable p with killed := true }
  else s.setThread f (yieldCode ++ yieldCode ++ code)

/-- The process of CPU `c` and its kernel stack, when it executes there. -/
def current (s : System slots cpus Other) (c : Fin cpus) :
    Option (Fin slots × Nat) :=
  (s.cpu c).stack.bind fun f => (s.cpu c).proc.map fun p => (p, f)

/-- One step. -/
def step (s : System slots cpus Other) :
    Label cpus Other → Option (System slots cpus Other)
  | .call c call =>
      (s.current c).bind fun (p, f) =>
        if (s.thread f).isEmpty = true ∧ ¬ (call.isExit = true ∧ p = s.initproc) then
          some (s.setThread f (call.code p))
        else none
  | .tick c user copied =>
      (s.current c).bind fun (p, f) =>
        if s.lock ≠ some c ∧ (s.ptable p).state = .running ∧
            (user = true → (s.thread f).isEmpty = true) then
          some (s.tickThread p f (s.thread f) user copied)
        else none
  | .wakeup c chan =>
      match (s.cpu c).stack with
      | some f =>
          if s.lock ≠ some c then
            some (s.setThread f (wakeupCode chan ++ s.thread f))
          else none
      | none =>
          if s.lock = none then
            some { s with ptable := s.ptable.wakeup1 (.other chan) }
          else none
  | .fault c =>
      (s.current c).bind fun (p, f) =>
        if (s.thread f).isEmpty then
          some (s.setProc p { s.ptable p with killed := true })
        else none
  | .uthreadInit c address =>
      (s.current c).bind fun (p, f) =>
        if (s.thread f).isEmpty then
          some { s.setProc p { s.ptable p with scheduler := address } with
            past := { s.past with
              registered := Function.update s.past.registered p
                (address :: s.past.registered p) } }
        else none
  | .exec c =>
      (s.current c).bind fun (p, f) =>
        if (s.thread f).isEmpty then
          some { s with
            past := { s.past with
              registered := Function.update s.past.registered p [] } }
        else none
  | .takeFrame g =>
      if s.frame g = .free then some (s.setFrame g .other) else none
  | .returnFrame g =>
      if s.frame g = .other then some (s.setFrame g .free) else none
  | .run c frame =>
      match (s.cpu c).stack with
      | some f =>
          match s.thread f with
          | stmt :: rest => s.runStmt c f rest frame stmt
          | [] => none
      | none => s.runScheduler c (s.cpu c).point

/-- The state after `userinit`: only the first process exists, and it waits to
be scheduled for the first time. -/
structure Boot (s : System slots cpus Other) : Prop where
  lock : s.lock = none
  nextpid : s.nextpid = 2
  cpu : ∀ c, s.cpu c = { proc := none, stack := none, point := .idle }
  init : ∃ f, s.ptable s.initproc =
      { state := .runnable, pid := 1, parent := none, chan := none,
        killed := false, kstack := some f, scheduler := 0 } ∧
    s.context s.initproc = some f ∧ s.frame f = .kstack ∧
    s.thread f = forkretCode
  others : ∀ p, p ≠ s.initproc → s.ptable p =
    { state := .unused, pid := 0, parent := none, chan := none,
      killed := false, kstack := none, scheduler := 0 }
  count : s.past.count = 1
  process : s.past.process s.initproc = 0
  exited : ∀ n, s.past.exited n = false
  events : s.past.events = []

/-- `userinit` has taken the first entry and frame 0. -/
def booted (slots cpus : Nat) (Other : Type) : System (slots + 1) cpus Other where
  ptable p :=
    { state := if p = 0 then .runnable else .unused
      pid := if p = 0 then 1 else 0
      parent := none
      chan := none
      killed := false
      kstack := if p = 0 then some 0 else none
      scheduler := 0 }
  initproc := 0
  nextpid := 2
  lock := none
  cpu _ := { proc := none, stack := none, point := .idle }
  context p := if p = 0 then some 0 else none
  thread f := if f = 0 then forkretCode else []
  frame f := if f = 0 then .kstack else .free
  past :=
    { count := 1
      process := fun _ => 0
      creator := fun _ => 0
      forker := fun _ => none
      exited := fun _ => false
      called := fun _ => false
      registered := fun _ => []
      events := [] }

omit [DecidableEq Other] in
theorem booted_boot (slots cpus : Nat) : (booted slots cpus Other).Boot where
  lock := rfl
  nextpid := rfl
  cpu _ := rfl
  init := ⟨0, rfl, rfl, rfl, rfl⟩
  others p other := by
    have isOther : p ≠ 0 := other
    simp [booted, isOther]
  count := rfl
  process := rfl
  exited _ := rfl
  events := rfl

variable {s next : System slots cpus Other} {c : Fin cpus}

omit [DecidableEq Other] in
theorem current_eq_some {p : Fin slots} {f : Nat}
    (current : s.current c = some (p, f)) :
    (s.cpu c).stack = some f ∧ (s.cpu c).proc = some p := by
  obtain ⟨g, stack, rest⟩ := Option.bind_eq_some_iff.mp current
  obtain ⟨q, proc, same⟩ := Option.map_eq_some_iff.mp rest
  cases same
  exact ⟨stack, proc⟩

/-- The process `p` of CPU `c` executes on its kernel stack in frame `f` and is
in user code or another part of the kernel. -/
structure Outside (s : System slots cpus Other) (c : Fin cpus) (p : Fin slots)
    (f : Nat) : Prop where
  stack : (s.cpu c).stack = some f
  proc : (s.cpu c).proc = some p
  empty : s.thread f = []

theorem step_call {call : Call Other}
    (stepped : s.step (.call c call) = some next) :
    ∃ p f, s.Outside c p f ∧ ¬ (call.isExit = true ∧ p = s.initproc) ∧
      next = s.setThread f (call.code p) := by
  obtain ⟨⟨p, f⟩, current, stepped⟩ := Option.bind_eq_some_iff.mp stepped
  obtain ⟨stack, proc⟩ := current_eq_some current
  dsimp only at stepped
  split at stepped <;> cases stepped
  rename_i guard
  exact ⟨p, f, ⟨stack, proc, List.isEmpty_iff.mp guard.1⟩, guard.2, rfl⟩

theorem step_tick {user copied : Bool}
    (stepped : s.step (.tick c user copied) = some next) :
    ∃ p f, (s.cpu c).stack = some f ∧ (s.cpu c).proc = some p ∧
      s.lock ≠ some c ∧ (s.ptable p).state = .running ∧
      next = s.tickThread p f (s.thread f) user copied := by
  obtain ⟨⟨p, f⟩, current, stepped⟩ := Option.bind_eq_some_iff.mp stepped
  obtain ⟨stack, proc⟩ := current_eq_some current
  dsimp only at stepped
  split at stepped <;> cases stepped
  rename_i guard
  exact ⟨p, f, stack, proc, guard.1, guard.2.1, rfl⟩

theorem step_fault (stepped : s.step (.fault c) = some next) :
    ∃ p f, s.Outside c p f ∧
      next = s.setProc p { s.ptable p with killed := true } := by
  obtain ⟨⟨p, f⟩, current, stepped⟩ := Option.bind_eq_some_iff.mp stepped
  obtain ⟨stack, proc⟩ := current_eq_some current
  dsimp only at stepped
  split at stepped <;> cases stepped
  rename_i empty
  exact ⟨p, f, ⟨stack, proc, List.isEmpty_iff.mp empty⟩, rfl⟩

theorem step_uthreadInit {address : BitVec 32}
    (stepped : s.step (.uthreadInit c address) = some next) :
    ∃ p f, s.Outside c p f ∧
      next = { s.setProc p { s.ptable p with scheduler := address } with
        past := { s.past with
          registered := Function.update s.past.registered p
            (address :: s.past.registered p) } } := by
  obtain ⟨⟨p, f⟩, current, stepped⟩ := Option.bind_eq_some_iff.mp stepped
  obtain ⟨stack, proc⟩ := current_eq_some current
  dsimp only at stepped
  split at stepped <;> cases stepped
  rename_i empty
  exact ⟨p, f, ⟨stack, proc, List.isEmpty_iff.mp empty⟩, rfl⟩

theorem step_exec (stepped : s.step (.exec c) = some next) :
    ∃ p f, s.Outside c p f ∧
      next = { s with
        past := { s.past with
          registered := Function.update s.past.registered p [] } } := by
  obtain ⟨⟨p, f⟩, current, stepped⟩ := Option.bind_eq_some_iff.mp stepped
  obtain ⟨stack, proc⟩ := current_eq_some current
  dsimp only at stepped
  split at stepped <;> cases stepped
  rename_i empty
  exact ⟨p, f, ⟨stack, proc, List.isEmpty_iff.mp empty⟩, rfl⟩

/-- `wakeup` in a thread, or as an interrupt on the stack of the scheduler. -/
theorem step_wakeup {chan : Other} (stepped : s.step (.wakeup c chan) = some next) :
    (∃ f, (s.cpu c).stack = some f ∧ s.lock ≠ some c ∧
      next = s.setThread f (wakeupCode chan ++ s.thread f)) ∨
    (s.cpu c).stack = none ∧ s.lock = none ∧
      next = { s with ptable := s.ptable.wakeup1 (.other chan) } := by
  simp only [step] at stepped
  split at stepped
  · rename_i f stack
    split at stepped <;> cases stepped
    rename_i unheld
    exact .inl ⟨f, stack, unheld, rfl⟩
  · rename_i stack
    split at stepped <;> cases stepped
    rename_i free
    exact .inr ⟨stack, free, rfl⟩

/-- The next statement of a thread or of a scheduler. -/
theorem step_run {frame : Option Nat} (stepped : s.step (.run c frame) = some next) :
    (∃ f stmt rest, (s.cpu c).stack = some f ∧ s.thread f = stmt :: rest ∧
      s.runStmt c f rest frame stmt = some next) ∨
    (s.cpu c).stack = none ∧ s.runScheduler c (s.cpu c).point = some next := by
  simp only [step] at stepped
  split at stepped
  · rename_i f stack
    split at stepped
    · rename_i stmt rest code
      exact .inl ⟨f, stmt, rest, stack, code, stepped⟩
    · cases stepped
  · rename_i stack
    exact .inr ⟨stack, stepped⟩

theorem step_takeFrame {g : Nat} (stepped : s.step (.takeFrame g) = some next) :
    s.frame g = .free ∧ next = s.setFrame g .other := by
  simp only [step] at stepped
  split at stepped <;> cases stepped
  rename_i free
  exact ⟨free, rfl⟩

theorem step_returnFrame {g : Nat}
    (stepped : s.step (.returnFrame g) = some next) :
    s.frame g = .other ∧ next = s.setFrame g .free := by
  simp only [step] at stepped
  split at stepped <;> cases stepped
  rename_i used
  exact ⟨used, rfl⟩

end System

end Xv6.Procs
