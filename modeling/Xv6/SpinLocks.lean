import Mathlib.Data.Fintype.Basic
import Mathlib.Data.Finset.Card
import Mathlib.Logic.Function.Basic
import Xv6.LabelledRuns

/-!
# Spin locks and interrupts

`spinlock.c` on several processors, one memory access at a time.  A processor turns
its interrupts off with `pushcli`, and the thread that runs on it may change
between a `pushcli` and its `popcli`.
-/

namespace Xv6.Spin

/-- `struct spinlock` -/
structure Spinlock (Cpu : Type*) where
  locked : Bool
  cpu : Option Cpu

/-- The messages of `panic`. -/
inductive Message (Lock : Type*) where
  | acquire (lk : Lock)
  | release (lk : Lock)
  /-- "popcli - interruptible" -/
  | interruptible
  | popcli
  /-- "sched ptable.lock" -/
  | schedLock
  /-- "sched locks" -/
  | schedLocks
  /-- "sched interruptible" -/
  | schedInterruptible

/-- What a processor does next in `spinlock.c`. -/
inductive Pc (Lock : Type*) where
  | outside
  /-- `acquire` reads `lk->locked` -/
  | acquireHolding (lk : Lock)
  /-- `acquire` reads `lk->cpu` -/
  | acquireOwner (lk : Lock)
  /-- `xchg` -/
  | spin (lk : Lock)
  /-- `acquire` stores `lk->cpu` -/
  | record (lk : Lock)
  /-- `release` reads `lk->locked` -/
  | releaseHolding (lk : Lock)
  /-- `release` reads `lk->cpu` -/
  | releaseOwner (lk : Lock)
  /-- `release` clears `lk->cpu` -/
  | clear (lk : Lock)
  /-- `release` clears `lk->locked` -/
  | unlock (lk : Lock)
  | popcli
  | panicked (message : Message Lock)

/-- `struct cpu`, the interrupt flag, and the thread that runs; the scheduler of the
processor runs when there is none. -/
structure CpuState (Lock Thread : Type*) where
  ncli : Nat
  intena : Bool
  iflag : Bool
  thread : Option Thread
  pc : Pc Lock

/-- A kernel thread: whether it waits to be scheduled, whether it has run before, and
`intena` of its call of `sched`.  What `entered` records is not in the source: the
interrupt flag before the outermost `pushcli`. -/
structure ThreadState where
  suspended : Bool
  started : Bool
  intena : Bool
  entered : Bool

structure State (Cpu Lock Thread : Type*) where
  cpus : Cpu → CpuState Lock Thread
  locks : Lock → Spinlock Cpu
  threads : Thread → ThreadState

/-- What a processor does. -/
inductive Event (Lock Thread : Type*) where
  /-- an interrupt, the return from it, `cli` and `sti` -/
  | flag (on : Bool)
  | pushcli
  | popcli
  | acquire (lk : Lock)
  | release (lk : Lock)
  /-- the next access of `spinlock.c` -/
  | next
  /-- the thread calls `sched` -/
  | sched
  /-- the scheduler switches to the thread -/
  | resume (t : Thread)

section Steps

variable {Cpu Lock Thread : Type*} [DecidableEq Cpu] [DecidableEq Lock] [DecidableEq Thread]

def State.setCpu (s : State Cpu Lock Thread) (c : Cpu) (cpu : CpuState Lock Thread) :
    State Cpu Lock Thread :=
  { s with cpus := Function.update s.cpus c cpu }

def State.setPc (s : State Cpu Lock Thread) (c : Cpu) (pc : Pc Lock) : State Cpu Lock Thread :=
  s.setCpu c { s.cpus c with pc := pc }

def State.setLock (s : State Cpu Lock Thread) (lk : Lock) (lock : Spinlock Cpu) :
    State Cpu Lock Thread :=
  { s with locks := Function.update s.locks lk lock }

def State.setThread (s : State Cpu Lock Thread) (t : Thread) (thread : ThreadState) :
    State Cpu Lock Thread :=
  { s with threads := Function.update s.threads t thread }

/-- The processor after `pushcli`. -/
def pushed (cpu : CpuState Lock Thread) (pc : Pc Lock) : CpuState Lock Thread :=
  { cpu with
    iflag := false
    intena := if cpu.ncli = 0 then cpu.iflag else cpu.intena
    ncli := cpu.ncli + 1
    pc := pc }

/-- The flag is recorded for the thread that calls the outermost `pushcli`. -/
def recorded (s : State Cpu Lock Thread) (c : Cpu) : Thread → ThreadState :=
  match (s.cpus c).thread with
  | some t =>
      if (s.cpus c).ncli = 0 then
        Function.update s.threads t { s.threads t with entered := (s.cpus c).iflag }
      else s.threads
  | none => s.threads

/-- `pushcli` -/
def pushcli (s : State Cpu Lock Thread) (c : Cpu) (pc : Pc Lock) : State Cpu Lock Thread where
  cpus := Function.update s.cpus c (pushed (s.cpus c) pc)
  locks := s.locks
  threads := recorded s c

/-- `popcli` -/
def popcli (s : State Cpu Lock Thread) (c : Cpu) : State Cpu Lock Thread :=
  let cpu := s.cpus c
  if cpu.iflag then s.setPc c (.panicked .interruptible)
  else if cpu.ncli = 0 then s.setPc c (.panicked .popcli)
  else s.setCpu c { cpu with
    ncli := cpu.ncli - 1
    iflag := decide (cpu.ncli = 1) && cpu.intena
    pc := .outside }

/-- The accesses of `acquire` and `release`. -/
def advance (s : State Cpu Lock Thread) (c : Cpu) : Option (State Cpu Lock Thread) :=
  match (s.cpus c).pc with
  | .outside => none
  | .acquireHolding lk =>
      some (if (s.locks lk).locked then s.setPc c (.acquireOwner lk) else s.setPc c (.spin lk))
  | .acquireOwner lk =>
      some (if (s.locks lk).cpu = some c then s.setPc c (.panicked (.acquire lk))
        else s.setPc c (.spin lk))
  | .spin lk =>
      if (s.locks lk).locked then some s
      else some ((s.setLock lk { s.locks lk with locked := true }).setPc c (.record lk))
  | .record lk => some ((s.setLock lk { s.locks lk with cpu := some c }).setPc c .outside)
  | .releaseHolding lk =>
      some (if (s.locks lk).locked then s.setPc c (.releaseOwner lk)
        else s.setPc c (.panicked (.release lk)))
  | .releaseOwner lk =>
      some (if (s.locks lk).cpu = some c then s.setPc c (.clear lk)
        else s.setPc c (.panicked (.release lk)))
  | .clear lk => some ((s.setLock lk { s.locks lk with cpu := none }).setPc c (.unlock lk))
  | .unlock lk => some ((s.setLock lk { s.locks lk with locked := false }).setPc c .popcli)
  | .popcli => some (popcli s c)
  | .panicked _ => none

/-- `sched`, up to the switch to the scheduler. -/
def sched (ptable : Lock) (s : State Cpu Lock Thread) (c : Cpu) (t : Thread) :
    State Cpu Lock Thread :=
  let cpu := s.cpus c
  if ¬((s.locks ptable).locked ∧ (s.locks ptable).cpu = some c) then
    s.setPc c (.panicked .schedLock)
  else if cpu.ncli ≠ 1 then s.setPc c (.panicked .schedLocks)
  else if cpu.iflag then s.setPc c (.panicked .schedInterruptible)
  else (s.setThread t { s.threads t with suspended := true, intena := cpu.intena }).setCpu c
    { cpu with thread := none }

/-- The switch of the scheduler to a thread: the end of its call of `sched`, or its
first steps. -/
def resume (s : State Cpu Lock Thread) (c : Cpu) (t : Thread) : State Cpu Lock Thread :=
  let cpu := s.cpus c
  let thread := s.threads t
  if thread.started then
    (s.setThread t { thread with suspended := false }).setCpu c
      { cpu with thread := some t, intena := thread.intena }
  else
    (s.setThread t
      { thread with suspended := false, started := true, entered := cpu.intena }).setCpu c
      { cpu with thread := some t }

/-- One step of a processor. -/
def step (ptable : Lock) (s : State Cpu Lock Thread) (label : Cpu × Event Lock Thread) :
    Option (State Cpu Lock Thread) :=
  let c := label.1
  let cpu := s.cpus c
  match label.2, cpu.pc with
  | .next, _ => advance s c
  | .flag on, .outside => if cpu.ncli = 0 then some (s.setCpu c { cpu with iflag := on }) else none
  | .pushcli, .outside => some (pushcli s c .outside)
  | .popcli, .outside => some (popcli s c)
  | .acquire lk, .outside => some (pushcli s c (.acquireHolding lk))
  | .release lk, .outside => some (s.setPc c (.releaseHolding lk))
  | .sched, .outside => cpu.thread.map fun t => sched ptable s c t
  | .resume t, .outside =>
      if cpu.thread = none ∧ (s.locks ptable).cpu = some c ∧ cpu.ncli = 1 ∧
          (s.threads t).suspended then
        some (resume s c t)
      else none
  | _, _ => none

/-- The processor is between the `xchg` of `acquire` and the end of `release`. -/
def Holds (s : State Cpu Lock Thread) (c : Cpu) (lk : Lock) : Prop :=
  (s.locks lk).cpu = some c ∨ (s.cpus c).pc = .record lk ∨ (s.cpus c).pc = .unlock lk

end Steps

/-! ## What holds of one processor -/

section Processors

variable {Cpu Lock Thread : Type*}

/-- The processor has the lock, but `lk->cpu` does not say so. -/
def Between (pc : Pc Lock) (lk : Lock) : Prop := pc = .record lk ∨ pc = .unlock lk

/-- A call of `pushcli` for a lock that the processor does not hold, or not yet. -/
def pending : Pc Lock → Nat
  | .acquireHolding _ | .acquireOwner _ | .spin _ | .record _ | .unlock _ | .popcli => 1
  | _ => 0

/-- What `lk->cpu` is where the processor is. -/
def PcOk (locks : Lock → Spinlock Cpu) (c : Cpu) : Pc Lock → Prop
  | .clear lk | .panicked (.acquire lk) => (locks lk).cpu = some c
  | .spin lk | .panicked (.release lk) => (locks lk).cpu ≠ some c
  | .panicked .popcli | .panicked .interruptible => False
  | _ => True

variable {locks : Lock → Spinlock Cpu} {cpus : Cpu → CpuState Lock Thread} {c : Cpu} {lk : Lock}
  {cpu : CpuState Lock Thread}

theorem between_record {lk' : Lock} (between : Between (.record lk) lk') : lk' = lk := by
  rcases between with isRecord | isUnlock
  · cases isRecord
    rfl
  · cases isUnlock

theorem between_unlock {lk' : Lock} (between : Between (.unlock lk) lk') : lk' = lk := by
  rcases between with isRecord | isUnlock
  · cases isRecord
  · cases isUnlock
    rfl

theorem not_between_of {pc : Pc Lock} (notRecord : ∀ lk, pc ≠ .record lk)
    (notUnlock : ∀ lk, pc ≠ .unlock lk) (lk : Lock) : ¬Between pc lk := by
  rintro (isRecord | isUnlock)
  · exact notRecord lk isRecord
  · exact notUnlock lk isUnlock

theorem not_between_outside (lk : Lock) : ¬Between (.outside : Pc Lock) lk :=
  not_between_of (by rintro lk ⟨⟩) (by rintro lk ⟨⟩) lk

theorem PcOk.congr {locks' : Lock → Spinlock Cpu} {pc : Pc Lock} (ok : PcOk locks c pc)
    (same : ∀ lk, (locks' lk).cpu = some c ↔ (locks lk).cpu = some c) : PcOk locks' c pc := by
  cases pc with
  | clear lk => exact (same lk).mpr ok
  | spin lk => exact fun isHere => ok ((same lk).mp isHere)
  | panicked message =>
      cases message with
      | acquire lk => exact (same lk).mpr ok
      | release lk => exact fun isHere => ok ((same lk).mp isHere)
      | interruptible | popcli => exact ok
      | schedLock | schedLocks | schedInterruptible => trivial
  | outside | acquireHolding _ | acquireOwner _ | record _ | releaseHolding _ | releaseOwner _
    | unlock _ | popcli => trivial

variable [DecidableEq Cpu] [Fintype Lock]

/-- The locks that say that the processor has them. -/
def held (locks : Lock → Spinlock Cpu) (c : Cpu) : Finset Lock :=
  Finset.univ.filter fun lk => (locks lk).cpu = some c

structure CpuOk (locks : Lock → Spinlock Cpu) (c : Cpu) (cpu : CpuState Lock Thread) : Prop where
  between : ∀ lk, Between cpu.pc lk → (locks lk).locked = true ∧ (locks lk).cpu = none
  here : PcOk locks c cpu.pc
  counts : (held locks c).card + pending cpu.pc ≤ cpu.ncli
  off : 0 < cpu.ncli → cpu.iflag = false

structure LocksOk (locks : Lock → Spinlock Cpu) (cpus : Cpu → CpuState Lock Thread) : Prop where
  owner : ∀ lk c, (locks lk).cpu = some c → (locks lk).locked = true
  cpu : ∀ c, CpuOk locks c (cpus c)
  apart : ∀ c c' lk, Between (cpus c).pc lk → Between (cpus c').pc lk → c = c'

theorem mem_held : lk ∈ held locks c ↔ (locks lk).cpu = some c := by
  unfold held
  rw [Finset.mem_filter]
  exact and_iff_right (Finset.mem_univ lk)

theorem held_congr {locks' : Lock → Spinlock Cpu}
    (same : ∀ lk, (locks' lk).cpu = some c ↔ (locks lk).cpu = some c) :
    held locks' c = held locks c := by
  ext lk
  rw [mem_held, mem_held, same]

/-- Only the processor itself changes. -/
theorem LocksOk.setCpu (ok : LocksOk locks cpus) (mine : CpuOk locks c cpu)
    (notNew : ∀ lk, ¬Between cpu.pc lk) : LocksOk locks (Function.update cpus c cpu) := by
  refine ⟨ok.owner, ?_, ?_⟩
  · intro c'
    by_cases isSelf : c' = c
    · subst isSelf
      rw [Function.update_self]
      exact mine
    · rw [Function.update_of_ne isSelf]
      exact ok.cpu c'
  · intro c1 c2 lk first second
    by_cases isFirst : c1 = c
    · rw [isFirst, Function.update_self] at first
      exact absurd first (notNew lk)
    · by_cases isSecond : c2 = c
      · rw [isSecond, Function.update_self] at second
        exact absurd second (notNew lk)
      · rw [Function.update_of_ne isFirst] at first
        rw [Function.update_of_ne isSecond] at second
        exact ok.apart c1 c2 lk first second

/-- The processor changes a lock that no other processor has. -/
theorem LocksOk.setLock [DecidableEq Lock] (ok : LocksOk locks cpus) {lock : Spinlock Cpu}
    (mine : CpuOk (Function.update locks lk lock) c cpu)
    (free : ∀ c', c' ≠ c → (locks lk).cpu ≠ some c' ∧ lock.cpu ≠ some c' ∧
      ¬Between (cpus c').pc lk)
    (owner : lock.cpu = some c → lock.locked = true)
    (only : ∀ lk', Between cpu.pc lk' → lk' = lk) :
    LocksOk (Function.update locks lk lock) (Function.update cpus c cpu) := by
  have same (c' : Cpu) (other : c' ≠ c) (lk' : Lock) :
      (Function.update locks lk lock lk').cpu = some c' ↔ (locks lk').cpu = some c' := by
    by_cases isLock : lk' = lk
    · rw [isLock, Function.update_self]
      exact iff_of_false (free c' other).2.1 (free c' other).1
    · rw [Function.update_of_ne isLock]
  refine ⟨?_, ?_, ?_⟩
  · intro lk' c' isOwner
    by_cases isLock : lk' = lk
    · rw [isLock, Function.update_self] at isOwner ⊢
      by_cases isSelf : c' = c
      · exact owner (isSelf ▸ isOwner)
      · exact absurd isOwner (free c' isSelf).2.1
    · rw [Function.update_of_ne isLock] at isOwner ⊢
      exact ok.owner lk' c' isOwner
  · intro c'
    by_cases isSelf : c' = c
    · subst isSelf
      rw [Function.update_self]
      exact mine
    · rw [Function.update_of_ne isSelf]
      have before := ok.cpu c'
      refine ⟨?_, before.here.congr (same c' isSelf), ?_, before.off⟩
      · intro lk' isBetween
        have isOther : lk' ≠ lk := by
          rintro rfl
          exact (free c' isSelf).2.2 isBetween
        rw [Function.update_of_ne isOther]
        exact before.between lk' isBetween
      · rw [held_congr (same c' isSelf)]
        exact before.counts
  · have new {c' : Cpu} {lk' : Lock} (other : c' ≠ c) (isHere : Between cpu.pc lk')
        (isThere : Between (cpus c').pc lk') : False := by
      rw [only lk' isHere] at isThere
      exact (free c' other).2.2 isThere
    intro c1 c2 lk' first second
    by_cases isFirst : c1 = c
    · by_cases isSecond : c2 = c
      · rw [isFirst, isSecond]
      · rw [isFirst, Function.update_self] at first
        rw [Function.update_of_ne isSecond] at second
        exact (new isSecond first second).elim
    · rw [Function.update_of_ne isFirst] at first
      by_cases isSecond : c2 = c
      · rw [isSecond, Function.update_self] at second
        exact (new isFirst second first).elim
      · rw [Function.update_of_ne isSecond] at second
        exact ok.apart c1 c2 lk' first second

/-- The processor is outside of `spinlock.c`. -/
theorem LocksOk.outside (ok : LocksOk locks cpus) (isOutside : cpu.pc = .outside)
    (counts : (held locks c).card ≤ cpu.ncli) (off : 0 < cpu.ncli → cpu.iflag = false) :
    LocksOk locks (Function.update cpus c cpu) := by
  apply ok.setCpu
  · refine ⟨?_, ?_, ?_, off⟩
    · intro lk isBetween
      rw [isOutside] at isBetween
      exact absurd isBetween (not_between_outside lk)
    · rw [isOutside]
      trivial
    · rw [isOutside]
      exact counts
  · rw [isOutside]
    exact not_between_outside

/-- A step that changes neither the locks nor the count of the processor. -/
theorem LocksOk.setPc (ok : LocksOk locks cpus) {pc : Pc Lock}
    (notRecord : ∀ lk, pc ≠ .record lk) (notUnlock : ∀ lk, pc ≠ .unlock lk)
    (here : PcOk locks c pc) (few : pending pc ≤ pending (cpus c).pc) :
    LocksOk locks (Function.update cpus c { cpus c with pc := pc }) := by
  have before := ok.cpu c
  have notBetween := not_between_of notRecord notUnlock
  refine ok.setCpu ⟨?_, here, ?_, before.off⟩ notBetween
  · intro lk isBetween
    exact absurd isBetween (notBetween lk)
  · exact (Nat.add_le_add_left few _).trans before.counts

end Processors

/-! ## What the steps keep -/

section Runs

variable {Cpu Lock Thread : Type*} {s s' : State Cpu Lock Thread} {c : Cpu} {pc : Pc Lock}

/-- No processor has called `pushcli`, no lock is taken, and no thread has run. -/
structure Booted (s : State Cpu Lock Thread) : Prop where
  cpus : ∀ c, (s.cpus c).ncli = 0 ∧ (s.cpus c).thread = none ∧ (s.cpus c).pc = .outside
  locks : ∀ lk, s.locks lk = ⟨false, none⟩
  threads : ∀ t, (s.threads t).suspended = true ∧ (s.threads t).started = false

section Locks

variable [DecidableEq Cpu]

/-- `popcli` where it does not panic. -/
theorem popcli_eq (off : (s.cpus c).iflag = false) (some' : (s.cpus c).ncli ≠ 0) :
    popcli s c = s.setCpu c { s.cpus c with
      ncli := (s.cpus c).ncli - 1
      iflag := decide ((s.cpus c).ncli = 1) && (s.cpus c).intena
      pc := .outside } := by
  simp only [popcli, off, Bool.false_eq_true, if_false, if_neg some']

theorem popcli_threads : (popcli s c).threads = s.threads := by
  simp only [popcli]
  split
  · rfl
  · split <;> rfl

theorem popcli_none (none' : (s.cpus c).ncli = 0) :
    ((popcli s c).cpus c).ncli = (s.cpus c).ncli := by
  simp only [popcli, if_pos none']
  split
  · simp only [State.setPc, State.setCpu, Function.update_self]
  · simp only [State.setPc, State.setCpu, Function.update_self]

/-- The outermost `popcli` restores the flag. -/
theorem popcli_last (one : (s.cpus c).ncli = 1) (none' : ((popcli s c).cpus c).ncli = 0) :
    ((popcli s c).cpus c).iflag = (s.cpus c).intena := by
  simp only [popcli, one] at none' ⊢
  split at none'
  · simp only [State.setPc, State.setCpu, Function.update_self, one] at none'
    cases none'
  · next off =>
    rw [if_neg off]
    simp only [one_ne_zero, if_false, State.setCpu, Function.update_self, decide_true,
      Bool.true_and]

variable [Fintype Lock]

abbrev Ok (s : State Cpu Lock Thread) : Prop := LocksOk s.locks s.cpus

/-- Callers of `popcli` have called `pushcli` before, not only `acquire`. -/
def Balanced (s : State Cpu Lock Thread) (label : Cpu × Event Lock Thread) : Prop :=
  label.2 = .popcli → (held s.locks label.1).card < (s.cpus label.1).ncli

theorem ok_popcli (ok : Ok s) (enough : (held s.locks c).card < (s.cpus c).ncli) :
    Ok (popcli s c) := by
  have before := ok.cpu c
  rw [popcli_eq (before.off (by omega)) (by omega)]
  apply ok.outside rfl
  · change (held s.locks c).card ≤ (s.cpus c).ncli - 1
    omega
  · intro some'
    change (decide ((s.cpus c).ncli = 1) && (s.cpus c).intena) = false
    change 0 < (s.cpus c).ncli - 1 at some'
    rw [decide_eq_false (by omega), Bool.false_and]

theorem ok_setPc (ok : Ok s) (notRecord : ∀ lk, pc ≠ .record lk)
    (notUnlock : ∀ lk, pc ≠ .unlock lk) (here : PcOk s.locks c pc)
    (few : pending pc ≤ pending (s.cpus c).pc) : Ok (s.setPc c pc) :=
  ok.setPc notRecord notUnlock here few

theorem ok_pushcli [DecidableEq Thread] (ok : Ok s) (notRecord : ∀ lk, pc ≠ .record lk)
    (notUnlock : ∀ lk, pc ≠ .unlock lk) (here : PcOk s.locks c pc)
    (outside : (s.cpus c).pc = .outside) : Ok (pushcli s c pc) := by
  have before := ok.cpu c
  have notBetween := not_between_of notRecord notUnlock
  have few : pending pc ≤ 1 := by
    unfold pending
    split <;> decide
  refine ok.setCpu ⟨?_, here, ?_, fun _ => rfl⟩ notBetween
  · intro lk isBetween
    exact absurd isBetween (notBetween lk)
  · have counts := before.counts
    rw [outside] at counts
    change (held s.locks c).card + pending pc ≤ (s.cpus c).ncli + 1
    exact Nat.add_le_add counts few

theorem Booted.ok (booted : Booted s) : Ok s := by
  have none' (lk : Lock) (c : Cpu) : (s.locks lk).cpu ≠ some c := by
    rw [booted.locks]
    rintro ⟨⟩
  have notBetween (c : Cpu) (lk : Lock) : ¬Between (s.cpus c).pc lk := by
    rw [(booted.cpus c).2.2]
    exact not_between_outside lk
  refine ⟨?_, ?_, ?_⟩
  · intro lk c isOwner
    exact absurd isOwner (none' lk c)
  · intro c
    refine ⟨?_, ?_, ?_, ?_⟩
    · intro lk isBetween
      exact absurd isBetween (notBetween c lk)
    · rw [(booted.cpus c).2.2]
      trivial
    · have empty : held s.locks c = ∅ := by
        apply Finset.eq_empty_of_forall_notMem
        intro lk isHeld
        exact none' lk c (mem_held.mp isHeld)
      rw [empty, (booted.cpus c).2.2]
      exact Nat.zero_le _
    · intro some'
      rw [(booted.cpus c).1] at some'
      exact absurd some' (Nat.lt_irrefl 0)
  · intro c _ lk isBetween
    exact absurd isBetween (notBetween c lk)

variable [DecidableEq Lock]

/-- The accesses of `acquire` and `release`. -/
theorem ok_advance (ok : Ok s) (stepped : advance s c = some s') : Ok s' := by
  have before := ok.cpu c
  have between := before.between
  have here := before.here
  have counts := before.counts
  unfold advance at stepped
  cases pcEq : (s.cpus c).pc with
  | outside | panicked _ =>
      rw [pcEq] at stepped
      cases stepped
  | acquireHolding lk =>
      simp only [pcEq, Option.some_inj] at stepped
      rw [← stepped]
      split
      · refine ok_setPc ok (by rintro lk ⟨⟩) (by rintro lk ⟨⟩) trivial ?_
        rw [pcEq]
        exact Nat.le_refl 1
      · next unlocked =>
        refine ok_setPc ok (by rintro lk ⟨⟩) (by rintro lk ⟨⟩) ?_ ?_
        · intro isOwner
          exact unlocked (ok.owner lk c isOwner)
        · rw [pcEq]
          exact Nat.le_refl 1
  | acquireOwner lk =>
      simp only [pcEq, Option.some_inj] at stepped
      rw [← stepped]
      split
      · next isOwner =>
        exact ok_setPc ok (by rintro lk ⟨⟩) (by rintro lk ⟨⟩) isOwner (Nat.zero_le _)
      · next notOwner =>
        refine ok_setPc ok (by rintro lk ⟨⟩) (by rintro lk ⟨⟩) notOwner ?_
        rw [pcEq]
        exact Nat.le_refl 1
  | spin lk =>
      simp only [pcEq] at stepped
      split at stepped
      · cases stepped
        exact ok
      · next unlocked =>
        cases stepped
        have isFree : (s.locks lk).cpu = none := by
          cases isOwner : (s.locks lk).cpu with
          | none => rfl
          | some c' => exact absurd (ok.owner lk c' isOwner) unlocked
        have same (lk' : Lock) : (Function.update s.locks lk { s.locks lk with locked := true }
            lk').cpu = some c ↔ (s.locks lk').cpu = some c := by
          by_cases isLock : lk' = lk
          · rw [isLock, Function.update_self]
          · rw [Function.update_of_ne isLock]
        apply ok.setLock
        · refine ⟨?_, trivial, ?_, before.off⟩
          · intro lk' isBetween
            rw [between_record isBetween, Function.update_self]
            exact ⟨rfl, isFree⟩
          · rw [held_congr same]
            rw [pcEq] at counts
            exact counts
        · intro c' _
          refine ⟨?_, ?_, ?_⟩
          · rw [isFree]
            rintro ⟨⟩
          · rw [isFree]
            rintro ⟨⟩
          · intro isBetween
            exact unlocked ((ok.cpu c').between lk isBetween).1
        · intro _
          rfl
        · intro lk' isBetween
          exact between_record isBetween
  | record lk =>
      simp only [pcEq, Option.some_inj] at stepped
      rw [← stepped]
      have isBetween : Between (s.cpus c).pc lk := .inl pcEq
      have isFree := between lk isBetween
      apply ok.setLock
      · refine ⟨?_, trivial, ?_, before.off⟩
        · intro lk' isBetween
          exact absurd isBetween (not_between_outside lk')
        · have more : held (Function.update s.locks lk { s.locks lk with cpu := some c }) c ⊆
              insert lk (held s.locks c) := by
            intro lk' isHeld
            rw [mem_held] at isHeld
            rw [Finset.mem_insert, mem_held]
            by_cases isLock : lk' = lk
            · exact .inl isLock
            · rw [Function.update_of_ne isLock] at isHeld
              exact .inr isHeld
          have card := (Finset.card_le_card more).trans (Finset.card_insert_le lk _)
          rw [pcEq] at counts
          exact card.trans counts
      · intro c' other
        refine ⟨?_, ?_, ?_⟩
        · rw [isFree.2]
          rintro ⟨⟩
        · exact fun isOwner => other (Option.some.inj isOwner).symm
        · intro isThere
          exact other (ok.apart c' c lk isThere isBetween)
      · intro _
        exact isFree.1
      · intro lk' isBetween
        exact absurd isBetween (not_between_outside lk')
  | releaseHolding lk =>
      simp only [pcEq, Option.some_inj] at stepped
      rw [← stepped]
      split
      · exact ok_setPc ok (by rintro lk ⟨⟩) (by rintro lk ⟨⟩) trivial (Nat.zero_le _)
      · next unlocked =>
        refine ok_setPc ok (by rintro lk ⟨⟩) (by rintro lk ⟨⟩) ?_ (Nat.zero_le _)
        intro isOwner
        exact unlocked (ok.owner lk c isOwner)
  | releaseOwner lk =>
      simp only [pcEq, Option.some_inj] at stepped
      rw [← stepped]
      split
      · next isOwner =>
        exact ok_setPc ok (by rintro lk ⟨⟩) (by rintro lk ⟨⟩) isOwner (Nat.zero_le _)
      · next notOwner =>
        exact ok_setPc ok (by rintro lk ⟨⟩) (by rintro lk ⟨⟩) notOwner (Nat.zero_le _)
  | clear lk =>
      simp only [pcEq, Option.some_inj] at stepped
      rw [← stepped]
      rw [pcEq] at here
      have isOwner : (s.locks lk).cpu = some c := here
      have locked := ok.owner lk c isOwner
      apply ok.setLock
      · refine ⟨?_, trivial, ?_, before.off⟩
        · intro lk' isBetween
          rw [between_unlock isBetween, Function.update_self]
          exact ⟨locked, rfl⟩
        · have fewer : held (Function.update s.locks lk { s.locks lk with cpu := none }) c ⊆
              (held s.locks c).erase lk := by
            intro lk' isHeld
            rw [mem_held] at isHeld
            rw [Finset.mem_erase, mem_held]
            by_cases isLock : lk' = lk
            · rw [isLock, Function.update_self] at isHeld
              cases isHeld
            · rw [Function.update_of_ne isLock] at isHeld
              exact ⟨isLock, isHeld⟩
          have card := Finset.card_le_card fewer
          have one := Finset.card_erase_add_one (mem_held.mpr isOwner)
          rw [pcEq] at counts
          exact (Nat.add_le_add_right card 1).trans (one.le.trans counts)
      · intro c' other
        refine ⟨?_, ?_, ?_⟩
        · rw [isOwner]
          exact fun isSelf => other (Option.some.inj isSelf).symm
        · rintro ⟨⟩
        · intro isThere
          rw [((ok.cpu c').between lk isThere).2] at isOwner
          cases isOwner
      · rintro ⟨⟩
      · intro lk' isBetween
        exact between_unlock isBetween
  | unlock lk =>
      simp only [pcEq, Option.some_inj] at stepped
      rw [← stepped]
      have isBetween : Between (s.cpus c).pc lk := .inr pcEq
      have isFree := between lk isBetween
      have same (lk' : Lock) : (Function.update s.locks lk { s.locks lk with locked := false }
          lk').cpu = some c ↔ (s.locks lk').cpu = some c := by
        by_cases isLock : lk' = lk
        · rw [isLock, Function.update_self]
        · rw [Function.update_of_ne isLock]
      apply ok.setLock
      · refine ⟨?_, trivial, ?_, before.off⟩
        · intro lk' isBetween
          exact absurd isBetween (not_between_of (by rintro lk ⟨⟩) (by rintro lk ⟨⟩) lk')
        · rw [held_congr same]
          rw [pcEq] at counts
          exact counts
      · intro c' other
        refine ⟨?_, ?_, ?_⟩
        · rw [isFree.2]
          rintro ⟨⟩
        · rw [isFree.2]
          rintro ⟨⟩
        · intro isThere
          exact other (ok.apart c' c lk isThere isBetween)
      · intro isOwner
        rw [isFree.2] at isOwner
        cases isOwner
      · intro lk' isBetween
        exact absurd isBetween (not_between_of (by rintro lk ⟨⟩) (by rintro lk ⟨⟩) lk')
  | popcli =>
      simp only [pcEq, Option.some_inj] at stepped
      rw [← stepped]
      apply ok_popcli ok
      rw [pcEq] at counts
      exact counts

variable [DecidableEq Thread]

/-- One step. -/
theorem ok_step {ptable : Lock} {label : Cpu × Event Lock Thread} (ok : Ok s)
    (balanced : Balanced s label) (stepped : step ptable s label = some s') : Ok s' := by
  obtain ⟨c, event⟩ := label
  have before := ok.cpu c
  by_cases isNext : event = .next
  · subst isNext
    exact ok_advance ok stepped
  · cases pcEq : (s.cpus c).pc with
    | outside =>
        have counts := before.counts
        rw [pcEq] at counts
        cases event with
        | next => exact absurd rfl isNext
        | flag on =>
            simp only [step, pcEq] at stepped
            split at stepped
            · next none' =>
              cases stepped
              refine ok.outside rfl counts ?_
              intro some'
              change 0 < (s.cpus c).ncli at some'
              omega
            · cases stepped
        | pushcli =>
            simp only [step, pcEq, Option.some_inj] at stepped
            rw [← stepped]
            exact ok_pushcli ok (by rintro lk ⟨⟩) (by rintro lk ⟨⟩) trivial pcEq
        | popcli =>
            simp only [step, pcEq, Option.some_inj] at stepped
            rw [← stepped]
            exact ok_popcli ok (balanced rfl)
        | acquire lk =>
            simp only [step, pcEq, Option.some_inj] at stepped
            rw [← stepped]
            exact ok_pushcli ok (by rintro lk ⟨⟩) (by rintro lk ⟨⟩) trivial pcEq
        | release lk =>
            simp only [step, pcEq, Option.some_inj] at stepped
            rw [← stepped]
            exact ok_setPc ok (by rintro lk ⟨⟩) (by rintro lk ⟨⟩) trivial (Nat.zero_le _)
        | sched =>
            simp only [step, pcEq, Option.map_eq_some_iff] at stepped
            obtain ⟨t, -, rfl⟩ := stepped
            simp only [sched]
            split
            · exact ok_setPc ok (by rintro lk ⟨⟩) (by rintro lk ⟨⟩) trivial (Nat.zero_le _)
            · split
              · exact ok_setPc ok (by rintro lk ⟨⟩) (by rintro lk ⟨⟩) trivial (Nat.zero_le _)
              · split
                · exact ok_setPc ok (by rintro lk ⟨⟩) (by rintro lk ⟨⟩) trivial (Nat.zero_le _)
                · exact ok.outside pcEq counts before.off
        | resume t =>
            simp only [step, pcEq] at stepped
            split at stepped
            · cases stepped
              simp only [resume]
              split
              · exact ok.outside pcEq counts before.off
              · exact ok.outside pcEq counts before.off
            · cases stepped
    | _ =>
        cases event with
        | next => exact absurd rfl isNext
        | _ =>
            simp only [step, pcEq] at stepped
            cases stepped

/-- No two processors have one lock, a processor that has a lock has its interrupts
off, and `acquire` and `release` panic only where they are misused. -/
theorem locks_exclude (booted : Booted s)
    (ran : LabelledRuns.run (step ptable) s labels = some s')
    (balanced : LabelledRuns.RunMeets (step ptable) Balanced s labels) :
    (∀ lk c c', Holds s' c lk → Holds s' c' lk → c = c') ∧
      (∀ lk c, Holds s' c lk → (s'.cpus c).iflag = false ∧ 0 < (s'.cpus c).ncli) ∧
      (∀ lk c, (s'.cpus c).pc = .spin lk → ¬Holds s' c lk) ∧
      (∀ lk c, (s'.cpus c).pc = .panicked (.acquire lk) → Holds s' c lk) ∧
      (∀ lk c, (s'.cpus c).pc = .panicked (.release lk) → ¬Holds s' c lk) ∧
      ∀ c, (s'.cpus c).pc ≠ .panicked .popcli ∧ (s'.cpus c).pc ≠ .panicked .interruptible := by
  have ok : Ok s' := LabelledRuns.invariant_of_runMeets ok_step booted.ok balanced ran
  have free {lk : Lock} {c : Cpu} (isBetween : Between (s'.cpus c).pc lk) :
      (s'.locks lk).cpu = none := ((ok.cpu c).between lk isBetween).2
  refine ⟨?_, ?_, ?_, ?_, ?_, ?_⟩
  · rintro lk c c' (isOwner | isBetween) (isOwner' | isBetween')
    · exact Option.some.inj (isOwner.symm.trans isOwner')
    · exact absurd ((free isBetween').symm.trans isOwner) (by rintro ⟨⟩)
    · exact absurd ((free isBetween).symm.trans isOwner') (by rintro ⟨⟩)
    · exact ok.apart c c' lk isBetween isBetween'
  · intro lk c holds
    have counts := (ok.cpu c).counts
    have some' : 0 < (s'.cpus c).ncli := by
      rcases holds with isOwner | isRecord | isUnlock
      · have one := Finset.card_pos.mpr ⟨lk, mem_held.mpr isOwner⟩
        omega
      · rw [isRecord] at counts
        exact Nat.lt_of_lt_of_le (Nat.succ_pos _) counts
      · rw [isUnlock] at counts
        exact Nat.lt_of_lt_of_le (Nat.succ_pos _) counts
    exact ⟨(ok.cpu c).off some', some'⟩
  · intro lk c spins
    have here := (ok.cpu c).here
    rw [spins] at here
    rintro (isOwner | isRecord | isUnlock)
    · exact here isOwner
    · rw [spins] at isRecord
      cases isRecord
    · rw [spins] at isUnlock
      cases isUnlock
  · intro lk c panicked
    have here := (ok.cpu c).here
    rw [panicked] at here
    exact .inl here
  · intro lk c panicked
    have here := (ok.cpu c).here
    rw [panicked] at here
    rintro (isOwner | isRecord | isUnlock)
    · exact here isOwner
    · rw [panicked] at isRecord
      cases isRecord
    · rw [panicked] at isUnlock
      cases isUnlock
  · intro c
    have here := (ok.cpu c).here
    constructor
    · intro panicked
      rw [panicked] at here
      exact here
    · intro panicked
      rw [panicked] at here
      exact here

/-- Two processors, one lock and one thread. -/
def twoCpus : State Bool Unit Unit where
  cpus := fun _ => ⟨0, false, true, none, .outside⟩
  locks := fun _ => ⟨false, none⟩
  threads := fun _ => ⟨true, false, false, false⟩

theorem twoCpus_booted : Booted twoCpus :=
  ⟨fun _ => ⟨rfl, rfl, rfl⟩, fun _ => rfl, fun _ => ⟨rfl, rfl⟩⟩

/-- One processor takes the lock while the other one spins. -/
theorem twoCpus_exclude : ∃ s', LabelledRuns.run (step ()) twoCpus
    [(false, .acquire ()), (true, .acquire ()), (false, .next), (false, .next), (true, .next),
      (true, .next), (false, .next)] = some s' ∧
    (∀ lk c c', Holds s' c lk → Holds s' c' lk → c = c') ∧
    (∀ lk c, (s'.cpus c).pc = .spin lk → ¬Holds s' c lk) := by
  have ends : ∃ s', LabelledRuns.run (step ()) twoCpus
      [(false, .acquire ()), (true, .acquire ()), (false, .next), (false, .next), (true, .next),
        (true, .next), (false, .next)] = some s' := ⟨_, rfl⟩
  obtain ⟨s', ran⟩ := ends
  have exclude := locks_exclude twoCpus_booted ran (by simp [LabelledRuns.RunMeets, Balanced])
  exact ⟨s', ran, exclude.1, exclude.2.2.1⟩

end Locks

/-! ## Threads -/

/-- A thread runs on one processor, which has the flag of its outermost `pushcli`; a
thread that waits has kept it. -/
structure ThreadsOk (cpus : Cpu → CpuState Lock Thread) (threads : Thread → ThreadState) :
    Prop where
  running : ∀ c t, (cpus c).thread = some t → (threads t).suspended = false ∧
    (0 < (cpus c).ncli → (cpus c).intena = (threads t).entered)
  alone : ∀ c c' t, (cpus c).thread = some t → (cpus c').thread = some t → c = c'
  saved : ∀ t, (threads t).suspended = true → (threads t).started = true →
    (threads t).intena = (threads t).entered

abbrev Follows (s : State Cpu Lock Thread) : Prop := ThreadsOk s.cpus s.threads

theorem Booted.follows (booted : Booted s) : Follows s := by
  refine ⟨?_, ?_, ?_⟩
  · intro c t isRunning
    rw [(booted.cpus c).2.1] at isRunning
    cases isRunning
  · intro c _ t isRunning
    rw [(booted.cpus c).2.1] at isRunning
    cases isRunning
  · intro t _ started
    rw [(booted.threads t).2] at started
    cases started

section Threads

variable [DecidableEq Cpu]

/-- The processor goes on with its thread. -/
theorem ThreadsOk.setCpu {cpus : Cpu → CpuState Lock Thread} {threads : Thread → ThreadState}
    {cpu : CpuState Lock Thread} (ok : ThreadsOk cpus threads)
    (same : cpu.thread = (cpus c).thread)
    (intena : ∀ t, cpu.thread = some t → 0 < cpu.ncli →
      0 < (cpus c).ncli ∧ cpu.intena = (cpus c).intena) :
    ThreadsOk (Function.update cpus c cpu) threads := by
  have thread (c' : Cpu) : (Function.update cpus c cpu c').thread = (cpus c').thread := by
    by_cases isSelf : c' = c
    · rw [isSelf, Function.update_self, same]
    · rw [Function.update_of_ne isSelf]
  refine ⟨?_, ?_, ok.saved⟩
  · intro c' t isRunning
    rw [thread] at isRunning
    obtain ⟨awake, entered⟩ := ok.running c' t isRunning
    refine ⟨awake, ?_⟩
    by_cases isSelf : c' = c
    · subst isSelf
      rw [Function.update_self]
      intro some'
      obtain ⟨before, kept⟩ := intena t (same.trans isRunning) some'
      rw [kept]
      exact entered before
    · rw [Function.update_of_ne isSelf]
      exact entered
  · intro c1 c2 t first second
    rw [thread] at first second
    exact ok.alone c1 c2 t first second

/-- The processor changes a thread that no other processor runs. -/
theorem ThreadsOk.setThread [DecidableEq Thread] {cpus : Cpu → CpuState Lock Thread}
    {threads : Thread → ThreadState} {cpu : CpuState Lock Thread} {t : Thread}
    {thread : ThreadState}
    (ok : ThreadsOk cpus threads) (others : ∀ c', c' ≠ c → (cpus c').thread ≠ some t)
    (mine : ∀ t', cpu.thread = some t' → t' = t ∧ thread.suspended = false ∧
      (0 < cpu.ncli → cpu.intena = thread.entered))
    (saved : thread.suspended = true → thread.started = true → thread.intena = thread.entered) :
    ThreadsOk (Function.update cpus c cpu) (Function.update threads t thread) := by
  refine ⟨?_, ?_, ?_⟩
  · intro c' t' isRunning
    by_cases isSelf : c' = c
    · rw [isSelf, Function.update_self] at isRunning ⊢
      obtain ⟨rfl, entered⟩ := mine t' isRunning
      rw [Function.update_self]
      exact entered
    · rw [Function.update_of_ne isSelf] at isRunning ⊢
      have other : t' ≠ t := by
        rintro rfl
        exact others c' isSelf isRunning
      rw [Function.update_of_ne other]
      exact ok.running c' t' isRunning
  · intro c1 c2 t' first second
    by_cases isFirst : c1 = c
    · by_cases isSecond : c2 = c
      · rw [isFirst, isSecond]
      · rw [isFirst, Function.update_self] at first
        rw [Function.update_of_ne isSecond] at second
        rw [(mine t' first).1] at second
        exact absurd second (others c2 isSecond)
    · rw [Function.update_of_ne isFirst] at first
      by_cases isSecond : c2 = c
      · rw [isSecond, Function.update_self] at second
        rw [(mine t' second).1] at first
        exact absurd first (others c1 isFirst)
      · rw [Function.update_of_ne isSecond] at second
        exact ok.alone c1 c2 t' first second
  · intro t'
    by_cases isThread : t' = t
    · rw [isThread, Function.update_self]
      exact saved
    · rw [Function.update_of_ne isThread]
      exact ok.saved t'

theorem follows_pushcli [DecidableEq Thread] (ok : Follows s) : Follows (pushcli s c pc) := by
  cases isThread : (s.cpus c).thread with
  | none =>
      have threads : (pushcli s c pc).threads = s.threads := by
        simp only [pushcli, recorded, isThread]
      unfold Follows
      rw [threads]
      refine ok.setCpu rfl ?_
      intro t isRunning
      exact absurd (isRunning.symm.trans isThread) (by rintro ⟨⟩)
  | some t =>
      by_cases outermost : (s.cpus c).ncli = 0
      · have threads : (pushcli s c pc).threads = Function.update s.threads t
            { s.threads t with entered := (s.cpus c).iflag } := by
          simp only [pushcli, recorded, isThread, if_pos outermost]
        obtain ⟨awake, -⟩ := ok.running c t isThread
        unfold Follows
        rw [threads]
        refine ok.setThread ?_ ?_ ?_
        · intro c' other isRunning
          exact other (ok.alone c' c t isRunning isThread)
        · intro t' isRunning
          refine ⟨Option.some.inj (isRunning.symm.trans isThread), awake, ?_⟩
          intro _
          exact if_pos outermost
        · intro asleep
          exact absurd (awake.symm.trans asleep) (by decide)
      · have threads : (pushcli s c pc).threads = s.threads := by
          simp only [pushcli, recorded, isThread, if_neg outermost]
        unfold Follows
        rw [threads]
        refine ok.setCpu rfl ?_
        intro _ _ _
        exact ⟨Nat.pos_of_ne_zero outermost, if_neg outermost⟩

theorem follows_setPc (ok : Follows s) : Follows (s.setPc c pc) := by
  refine ok.setCpu rfl ?_
  intro _ _ some'
  exact ⟨some', rfl⟩

theorem follows_popcli (ok : Follows s) : Follows (popcli s c) := by
  simp only [popcli]
  split
  · exact follows_setPc ok
  · split
    · exact follows_setPc ok
    · next some' =>
      refine ok.setCpu rfl ?_
      intro _ _ _
      exact ⟨Nat.pos_of_ne_zero some', rfl⟩

/-- The processor has called `pushcli` as often as before, and no flag is recorded. -/
structure Keeps (s s' : State Cpu Lock Thread) (c : Cpu) : Prop where
  count : (s'.cpus c).ncli = (s.cpus c).ncli
  entered : ∀ t, (s.threads t).started = true →
    (s'.threads t).entered = (s.threads t).entered

theorem keeps_setCpu {s1 : State Cpu Lock Thread} {cpu : CpuState Lock Thread}
    (count : cpu.ncli = (s.cpus c).ncli) (entered : ∀ t, (s.threads t).started = true →
      (s1.threads t).entered = (s.threads t).entered) : Keeps s (s1.setCpu c cpu) c := by
  refine ⟨?_, entered⟩
  change (Function.update s1.cpus c cpu c).ncli = _
  rw [Function.update_self, count]

theorem keeps_setPc : Keeps s (s.setPc c pc) c :=
  keeps_setCpu rfl fun _ _ => rfl

theorem keeps_setThread [DecidableEq Thread] {t : Thread} {thread : ThreadState}
    {cpu : CpuState Lock Thread}
    (count : cpu.ncli = (s.cpus c).ncli) (entered : (s.threads t).started = true →
      thread.entered = (s.threads t).entered) :
    Keeps s ((s.setThread t thread).setCpu c cpu) c := by
  apply keeps_setCpu count
  intro t' started
  change (Function.update s.threads t thread t').entered = _
  by_cases isThread : t' = t
  · subst isThread
    rw [Function.update_self]
    exact entered started
  · rw [Function.update_of_ne isThread]

variable [DecidableEq Lock]

theorem follows_advance (ok : Follows s) (stepped : advance s c = some s') : Follows s' := by
  unfold advance at stepped
  split at stepped
  case h_1 | h_11 => cases stepped
  case h_10 =>
    cases stepped
    exact follows_popcli ok
  case h_4 =>
    split at stepped
    · cases stepped
      exact ok
    · cases stepped
      exact follows_setPc (s := s.setLock _ _) ok
  case h_2 | h_3 | h_6 | h_7 =>
    cases stepped
    split
    · exact follows_setPc ok
    · exact follows_setPc ok
  case h_5 | h_8 | h_9 =>
    cases stepped
    exact follows_setPc ok

theorem advance_cases (stepped : advance s c = some s') :
    s' = popcli s c ∨ Keeps s s' c := by
  unfold advance at stepped
  split at stepped
  case h_1 | h_11 => cases stepped
  case h_10 =>
    cases stepped
    exact .inl rfl
  case h_4 =>
    right
    split at stepped
    · cases stepped
      exact ⟨rfl, fun _ _ => rfl⟩
    · cases stepped
      exact keeps_setCpu rfl fun _ _ => rfl
  case h_2 | h_3 | h_6 | h_7 =>
    right
    cases stepped
    split
    · exact keeps_setPc
    · exact keeps_setPc
  case h_5 | h_8 | h_9 =>
    right
    cases stepped
    exact keeps_setCpu rfl fun _ _ => rfl

variable [DecidableEq Thread]

theorem follows_step {ptable : Lock} {label : Cpu × Event Lock Thread} (ok : Follows s)
    (stepped : step ptable s label = some s') : Follows s' := by
  obtain ⟨c, event⟩ := label
  by_cases isNext : event = .next
  · subst isNext
    exact follows_advance ok stepped
  · cases pcEq : (s.cpus c).pc with
    | outside =>
        cases event with
        | next => exact absurd rfl isNext
        | flag on =>
            simp only [step, pcEq] at stepped
            split at stepped
            · cases stepped
              refine ok.setCpu rfl ?_
              intro _ _ some'
              exact ⟨some', rfl⟩
            · cases stepped
        | pushcli | acquire _ =>
            simp only [step, pcEq, Option.some_inj] at stepped
            rw [← stepped]
            exact follows_pushcli ok
        | popcli =>
            simp only [step, pcEq, Option.some_inj] at stepped
            rw [← stepped]
            exact follows_popcli ok
        | release lk =>
            simp only [step, pcEq, Option.some_inj] at stepped
            rw [← stepped]
            exact follows_setPc ok
        | sched =>
            simp only [step, pcEq, Option.map_eq_some_iff] at stepped
            obtain ⟨t, isRunning, rfl⟩ := stepped
            simp only [sched]
            split
            · exact follows_setPc ok
            · split
              · exact follows_setPc ok
              · next one =>
                split
                · exact follows_setPc ok
                · refine ok.setThread ?_ ?_ ?_
                  · intro c' other isThere
                    exact other (ok.alone c' c t isThere isRunning)
                  · rintro t' ⟨⟩
                  · intro _ _
                    apply (ok.running c t isRunning).2
                    omega
        | resume t =>
            simp only [step, pcEq] at stepped
            split at stepped
            · next waits =>
              obtain ⟨-, -, -, asleep⟩ := waits
              cases stepped
              have others (c' : Cpu) (_ : c' ≠ c) : (s.cpus c').thread ≠ some t := by
                intro isRunning
                exact absurd ((ok.running c' t isRunning).1.symm.trans asleep) (by decide)
              simp only [resume]
              split
              · next started =>
                refine ok.setThread others ?_ ?_
                · rintro t' ⟨⟩
                  exact ⟨rfl, rfl, fun _ => ok.saved t asleep started⟩
                · rintro ⟨⟩
              · refine ok.setThread others ?_ ?_
                · rintro t' ⟨⟩
                  exact ⟨rfl, rfl, fun _ => rfl⟩
                · rintro ⟨⟩
            · cases stepped
    | _ =>
        cases event with
        | next => exact absurd rfl isNext
        | _ =>
            simp only [step, pcEq] at stepped
            cases stepped

/-- Only `pushcli` and `popcli` count, and only `pushcli` records a flag for a thread
that has run before. -/
theorem step_cases {ptable : Lock} {event : Event Lock Thread}
    (stepped : step ptable s (c, event) = some s') :
    (∃ pc, s' = pushcli s c pc) ∨ s' = popcli s c ∨ Keeps s s' c := by
  by_cases isNext : event = .next
  · subst isNext
    exact .inr (advance_cases stepped)
  · cases pcEq : (s.cpus c).pc with
    | outside =>
        cases event with
        | next => exact absurd rfl isNext
        | flag on =>
            simp only [step, pcEq] at stepped
            split at stepped
            · cases stepped
              exact .inr (.inr (keeps_setCpu rfl fun _ _ => rfl))
            · cases stepped
        | pushcli | acquire _ =>
            simp only [step, pcEq, Option.some_inj] at stepped
            exact .inl ⟨_, stepped.symm⟩
        | popcli =>
            simp only [step, pcEq, Option.some_inj] at stepped
            exact .inr (.inl stepped.symm)
        | release lk =>
            simp only [step, pcEq, Option.some_inj] at stepped
            rw [← stepped]
            exact .inr (.inr keeps_setPc)
        | sched =>
            simp only [step, pcEq, Option.map_eq_some_iff] at stepped
            obtain ⟨t, -, rfl⟩ := stepped
            simp only [sched]
            right
            right
            split
            · exact keeps_setPc
            · split
              · exact keeps_setPc
              · split
                · exact keeps_setPc
                · exact keeps_setThread rfl fun _ => rfl
        | resume t =>
            simp only [step, pcEq] at stepped
            split at stepped
            · cases stepped
              simp only [resume]
              right
              right
              split
              · exact keeps_setThread rfl fun _ => rfl
              · next new => exact keeps_setThread rfl fun started => absurd started new
            · cases stepped
    | _ =>
        cases event with
        | next => exact absurd rfl isNext
        | _ =>
            simp only [step, pcEq] at stepped
            cases stepped

/-- The interrupt flag belongs to the thread: its outermost `popcli` leaves the flag as
its outermost `pushcli` has found it, on whichever processors they are, and nothing in
between changes what is recorded. -/
theorem flag_follows_thread (booted : Booted s)
    (ran : LabelledRuns.run (step ptable) s labels = some s') :
    ∀ c event next t, step ptable s' (c, event) = some next →
      ((s'.cpus c).thread = some t → (s'.cpus c).ncli = 0 → (next.cpus c).ncli = 1 →
        (next.threads t).entered = (s'.cpus c).iflag) ∧
      ((s'.cpus c).thread = some t → (s'.cpus c).ncli = 1 → (next.cpus c).ncli = 0 →
        (next.cpus c).iflag = (s'.threads t).entered) ∧
      ((s'.threads t).started = true → ¬((s'.cpus c).thread = some t ∧ (s'.cpus c).ncli = 0) →
        (next.threads t).entered = (s'.threads t).entered) := by
  have ok : Follows s' := LabelledRuns.invariant_of_run follows_step booted.follows ran
  intro c event next t stepped
  rcases step_cases stepped with ⟨pc, rfl⟩ | rfl | keeps
  · refine ⟨?_, ?_, ?_⟩
    · intro isRunning none' _
      simp only [pushcli, recorded, isRunning, if_pos none', Function.update_self]
    · intro _ one none'
      change (Function.update s'.cpus c (pushed (s'.cpus c) pc) c).ncli = 0 at none'
      rw [Function.update_self] at none'
      cases none'
    · intro _ inner
      cases isThread : (s'.cpus c).thread with
      | none => simp only [pushcli, recorded, isThread]
      | some t' =>
          by_cases none' : (s'.cpus c).ncli = 0
          · have other : t ≠ t' := by
              rintro rfl
              exact inner ⟨isThread, none'⟩
            simp only [pushcli, recorded, isThread, if_pos none', Function.update_of_ne other]
          · simp only [pushcli, recorded, isThread, if_neg none']
  · refine ⟨?_, ?_, ?_⟩
    · intro _ none' one
      rw [popcli_none none', none'] at one
      cases one
    · intro isRunning one none'
      rw [popcli_last one none']
      exact (ok.running c t isRunning).2 (by omega)
    · intro _ _
      rw [popcli_threads]
  · refine ⟨?_, ?_, ?_⟩
    · intro _ none' one
      rw [keeps.count, none'] at one
      cases one
    · intro _ one none'
      rw [keeps.count, one] at none'
      cases none'
    · intro started _
      exact keeps.entered t started

/-- A thread starts on one processor, turns the interrupts on and calls `sched` with its
lock; the other processor, whose interrupts are off, goes on with it. -/
def changesCpu : List (Bool × Event Unit Unit) :=
  let taken (c : Bool) : List (Bool × Event Unit Unit) :=
    [(c, .acquire ()), (c, .next), (c, .next), (c, .next)]
  let given (c : Bool) : List (Bool × Event Unit Unit) :=
    [(c, .release ()), (c, .next), (c, .next), (c, .next), (c, .next)]
  taken false ++ [(false, Event.resume ())] ++ given false ++
    [(false, Event.next), (false, .flag true)] ++ taken false ++ [(false, Event.sched)] ++
    given false ++ [(false, Event.next)] ++ taken true ++ [(true, Event.resume ())] ++ given true

/-- At the end of its `release` the thread has its interrupts on again. -/
theorem twoCpus_flag : ∃ s' next, LabelledRuns.run (step ()) twoCpus changesCpu = some s' ∧
    step () s' (true, .next) = some next ∧ (s'.cpus true).ncli = 1 ∧ (next.cpus true).ncli = 0 ∧
    (s'.threads ()).entered = true ∧ (next.cpus true).iflag = (s'.threads ()).entered := by
  have ends : ∃ s' next, LabelledRuns.run (step ()) twoCpus changesCpu = some s' ∧
      step () s' (true, .next) = some next ∧ (s'.cpus true).thread = some () ∧
      (s'.cpus true).ncli = 1 ∧ (next.cpus true).ncli = 0 ∧ (s'.threads ()).entered = true :=
    ⟨_, _, rfl, rfl, rfl, rfl, rfl, rfl⟩
  obtain ⟨s', next, ran, stepped, isRunning, one, none', entered⟩ := ends
  refine ⟨s', next, ran, stepped, one, none', entered, ?_⟩
  exact (flag_follows_thread twoCpus_booted ran true .next next () stepped).2.1 isRunning one
    none'

end Threads

end Runs

end Xv6.Spin
