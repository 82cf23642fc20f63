import Xv6.LabelledRuns
import Mathlib.Data.Fintype.Basic
import Mathlib.Logic.Function.Basic

/-!
# Sleep locks

`acquiresleep`, `releasesleep` and `holdingsleep` on one sleep lock, by any number of
processes, at the granularity of lock operations and stores.  `holdingsleep` returns
the flag `locked` and does not look at the field `pid`: it tells a process that holds
the lock from one that does not only while nobody else holds it.  The functions that
check it before they go on, of which `brelse` and `iunlock` then release the lock, let
such a process pass.
-/

namespace Xv6.SleepLock

open LabelledRuns

/-- Who calls `holdingsleep`: a process itself, or one of the functions that panic
unless it returns non-zero, for an inode with a reference in the case of `iunlock`. -/
inductive Caller where
  | direct
  | bwrite
  | iderw
  | brelse
  | iunlock
  deriving DecidableEq

/-- Where a process stands. -/
inductive Pc where
  /-- outside the functions below -/
  | code
  /-- `acquiresleep`: `acquire(&lk->lk)` -/
  | acquire
  /-- `acquiresleep`: `while (lk->locked)` -/
  | test
  /-- `sleep`: `acquire(&ptable.lock)` -/
  | sleepAcquire
  /-- `sleep`: `release(lk)` -/
  | sleepRelease
  /-- `sleep`: `p->chan = chan; p->state = SLEEPING; sched()` -/
  | sleepSched
  /-- `sleep`: until the state is `RUNNABLE` again -/
  | asleep
  /-- `sleep`: `acquire(lk)` -/
  | reacquire
  /-- `acquiresleep`: `lk->locked = 1` -/
  | lock
  /-- `acquiresleep`: `lk->pid = myproc()->pid` -/
  | setPid
  /-- `acquiresleep`: `release(&lk->lk)` -/
  | acquired
  /-- `releasesleep`: `acquire(&lk->lk)` -/
  | releaseAcquire
  /-- `releasesleep`: `lk->locked = 0` -/
  | unlock
  /-- `releasesleep`: `lk->pid = 0` -/
  | clearPid
  /-- `wakeup`: `acquire(&ptable.lock)` -/
  | wakeAcquire
  /-- `wakeup`: `wakeup1(chan)` -/
  | wakeScan
  /-- `wakeup`: `release(&ptable.lock)` -/
  | wakeRelease
  /-- `releasesleep`: `release(&lk->lk)` -/
  | released
  /-- `holdingsleep`: `acquire(&lk->lk)` -/
  | holdAcquire (caller : Caller)
  /-- `holdingsleep`: `r = lk->locked` -/
  | holdRead (caller : Caller)
  /-- `holdingsleep`: `release(&lk->lk)`, and what is returned -/
  | holdRelease (caller : Caller) (r : Nat)
  /-- behind the check of a function that does not panic -/
  | checked (caller : Caller)
  /-- in `panic` -/
  | panicked
  deriving DecidableEq

/-- The lock, `ptable.lock` and the processes.  `inside` says who has completed an
`acquiresleep` and has not called `releasesleep` since. -/
structure System (P : Type) where
  locked : Nat
  pid : Nat
  lk : Option P
  tableLock : Option P
  pc : P → Pc
  inside : P → Bool

/-- What happens next: a call, the next step inside one, or that a sleeping process is
made runnable by `kill`. -/
inductive Label (P : Type) where
  | acquiresleep (p : P)
  | releasesleep (p : P)
  | holdingsleep (p : P) (caller : Caller)
  | run (p : P)
  | kill (p : P)

variable {P : Type}

namespace System

section Steps

variable [DecidableEq P]

def goto (s : System P) (p : P) (pc : Pc) : System P :=
  { s with pc := Function.update s.pc p pc }

/-- `acquire(&lk->lk)`; not enabled while the lock is held. -/
def takeLk (s : System P) (p : P) (pc : Pc) : Option (System P) :=
  if s.lk = none then some ({ s with lk := some p }.goto p pc) else none

/-- `release(&lk->lk)`; a process that does not hold it panics. -/
def dropLk (s : System P) (p : P) (pc : Pc) : Option (System P) :=
  if s.lk = some p then some ({ s with lk := none }.goto p pc) else none

/-- `acquire(&ptable.lock)`; not enabled while the lock is held. -/
def takeTable (s : System P) (p : P) (pc : Pc) : Option (System P) :=
  if s.tableLock = none then some ({ s with tableLock := some p }.goto p pc) else none

/-- A process completes an `acquiresleep` or calls `releasesleep`. -/
def setInside (s : System P) (p : P) (value : Bool) : System P :=
  { s with inside := Function.update s.inside p value }

/-- `wakeup1`: the processes asleep on the lock are runnable. -/
def wakeup1 (s : System P) : System P :=
  { s with pc := fun p => if s.pc p = .asleep then .reacquire else s.pc p }

/-- Where a function goes on after `holdingsleep`. -/
def afterCheck (caller : Caller) (r : Nat) : Pc :=
  if caller = .direct then .code else if r = 0 then .panicked else .checked caller

/-- The next step of a process inside one of the functions. -/
def runPc (pidOf : P → Nat) (s : System P) (p : P) : Pc → Option (System P)
  | .code => none
  | .acquire => s.takeLk p .test
  | .test => if s.locked ≠ 0 then some (s.goto p .sleepAcquire) else some (s.goto p .lock)
  | .sleepAcquire => s.takeTable p .sleepRelease
  | .sleepRelease => s.dropLk p .sleepSched
  | .sleepSched => some ({ s with tableLock := none }.goto p .asleep)
  | .asleep => none
  | .reacquire => s.takeLk p .test
  | .lock => some ({ s with locked := 1 }.goto p .setPid)
  | .setPid => some ({ s with pid := pidOf p }.goto p .acquired)
  | .acquired => (s.dropLk p .code).map fun s => s.setInside p true
  | .releaseAcquire => s.takeLk p .unlock
  | .unlock => some ({ s with locked := 0 }.goto p .clearPid)
  | .clearPid => some ({ s with pid := 0 }.goto p .wakeAcquire)
  | .wakeAcquire => s.takeTable p .wakeScan
  | .wakeScan => some (s.wakeup1.goto p .wakeRelease)
  | .wakeRelease => some ({ s with tableLock := none }.goto p .released)
  | .released => s.dropLk p .code
  | .holdAcquire caller => s.takeLk p (.holdRead caller)
  | .holdRead caller => some (s.goto p (.holdRelease caller s.locked))
  | .holdRelease caller r => s.dropLk p (afterCheck caller r)
  | .checked .direct => none
  | .checked .bwrite => some (s.goto p (.holdAcquire .iderw))
  | .checked .iderw => some (s.goto p .code)
  | .checked .brelse => some ((s.setInside p false).goto p .releaseAcquire)
  | .checked .iunlock => some ((s.setInside p false).goto p .releaseAcquire)
  | .panicked => none

/-- One step. -/
def step (pidOf : P → Nat) (s : System P) : Label P → Option (System P)
  | .acquiresleep p => if s.pc p = .code then some (s.goto p .acquire) else none
  | .releasesleep p =>
      if s.pc p = .code then some ((s.setInside p false).goto p .releaseAcquire) else none
  | .holdingsleep p caller =>
      if s.pc p = .code then some (s.goto p (.holdAcquire caller)) else none
  | .run p => s.runPc pidOf p (s.pc p)
  | .kill p => if s.pc p = .asleep then some (s.goto p .reacquire) else none

end Steps

/-- The lock as `initsleeplock` leaves it, with every process outside the functions. -/
structure Start (s : System P) : Prop where
  locked : s.locked = 0
  lk : s.lk = none
  pc : ∀ p, s.pc p = .code
  inside : ∀ p, s.inside p = false

/-- One process at most is between its `acquiresleep` and its `releasesleep`, and what
`holdingsleep` returns, and who passes the checks of it, tells whether a process is. -/
structure Identifies (s : System P) : Prop where
  exclusive : ∀ p q, s.inside p = true → s.inside q = true → p = q
  answer : ∀ p caller r, s.pc p = .holdRelease caller r → (r ≠ 0 ↔ s.inside p = true)
  passed : ∀ p caller, s.pc p = .checked caller → s.inside p = true
  panicked : ∀ p, s.pc p = .panicked → s.inside p = false

end System

/-- The process is about to read the flag in `holdingsleep`. -/
def Pc.reads : Pc → Bool
  | .holdRead _ => true
  | _ => false

theorem Pc.exists_of_reads {pc : Pc} (reads : pc.reads = true) :
    ∃ caller, pc = .holdRead caller := by
  cases pc with
  | holdRead caller => exact ⟨caller, rfl⟩
  | _ => cases reads

/-- The process has set the flag or is to clear it. -/
def Pc.occupying : Pc → Bool
  | .setPid | .acquired | .releaseAcquire | .unlock => true
  | _ => false

namespace System

/-- The flag is set on behalf of this process: it is inside, or on its way in or out. -/
def Occupies (s : System P) (p : P) : Prop :=
  s.inside p = true ∨ (s.pc p).occupying = true

instance (s : System P) (p : P) : Decidable (s.Occupies p) := inferInstanceAs (Decidable (_ ∨ _))

/-- `releasesleep` is called by a process that is inside. -/
def Owned (s : System P) : Label P → Prop
  | .releasesleep p => s.inside p = true
  | _ => True

/-- The lock is released by a process that is inside, in `brelse` and `iunlock` also. -/
def Released (s : System P) : Label P → Prop
  | .releasesleep p => s.inside p = true
  | .run p => s.pc p = .checked .brelse ∨ s.pc p = .checked .iunlock → s.inside p = true
  | _ => True

/-- `holdingsleep` reads the flag while no other process has the lock. -/
def Alone (s : System P) : Label P → Prop
  | .run p => (s.pc p).reads = true → ∀ other, s.Occupies other → other = p
  | _ => True

instance (s : System P) (label : Label P) : Decidable (Owned s label) :=
  match label with
  | .releasesleep p => inferInstanceAs (Decidable (s.inside p = true))
  | .acquiresleep _ | .holdingsleep _ _ | .run _ | .kill _ => inferInstanceAs (Decidable True)

instance [Fintype P] [DecidableEq P] (s : System P) (label : Label P) :
    Decidable (Alone s label) :=
  match label with
  | .run p =>
      inferInstanceAs (Decidable ((s.pc p).reads = true → ∀ other, s.Occupies other → other = p))
  | .acquiresleep _ | .holdingsleep _ _ | .releasesleep _ | .kill _ =>
      inferInstanceAs (Decidable True)

end System

/-! ## The invariant -/

/-- The process holds `lk->lk` at this point. -/
def Pc.holdsLk : Pc → Bool
  | .test | .sleepAcquire | .sleepRelease | .lock | .setPid | .acquired | .unlock | .clearPid
  | .wakeAcquire | .wakeScan | .wakeRelease | .released | .holdRead _ | .holdRelease _ _ => true
  | _ => false

/-- What a process knows at this point of the flag and of itself, the latter from
`holdingsleep` if that has told it right. -/
def Pc.Fine (told : Prop) (locked : Nat) (inside : Bool) : Pc → Prop
  | .lock => locked = 0
  | .releaseAcquire | .unlock => inside = false
  | .holdRelease _ r => told → (r ≠ 0 ↔ inside = true)
  | .checked _ => told → inside = true
  | .panicked => told → inside = false
  | _ => True

namespace System

structure Ok (told : Prop) (s : System P) : Prop where
  lk : ∀ p, s.lk = some p ↔ (s.pc p).holdsLk = true
  unique : ∀ p q, s.Occupies p → s.Occupies q → p = q
  locked : s.locked ≠ 0 ↔ ∃ p, s.Occupies p
  fine : ∀ p, (s.pc p).Fine told s.locked (s.inside p)

variable {told : Prop} {s next : System P} {p : P} {pc : Pc}

theorem Ok.identifies (ok : Ok True s) : Identifies s where
  exclusive p q first second := ok.unique p q (.inl first) (.inl second)
  answer p caller r here := by
    have fine := ok.fine p
    rw [here] at fine
    exact fine trivial
  passed p caller here := by simpa [here, Pc.Fine] using ok.fine p
  panicked p here := by simpa [here, Pc.Fine] using ok.fine p

theorem Start.ok (start : Start s) : Ok told s where
  lk p := by simp [start.lk, start.pc p, Pc.holdsLk]
  unique p q first := by simp [Occupies, start.inside p, start.pc p, Pc.occupying] at first
  locked := by simp [Occupies, start.locked, start.inside, start.pc, Pc.occupying]
  fine p := by simp [start.pc p, Pc.Fine]

/-- A step that neither sets nor clears the flag leaves it to whoever has it. -/
theorem Ok.of_occupies (ok : Ok told s) (flag : next.locked = s.locked)
    (occupies : ∀ q, next.Occupies q ↔ s.Occupies q)
    (lk : ∀ q, next.lk = some q ↔ (next.pc q).holdsLk = true)
    (fine : ∀ q, (next.pc q).Fine told next.locked (next.inside q)) : Ok told next where
  lk := lk
  unique p q first second := ok.unique p q ((occupies p).mp first) ((occupies q).mp second)
  locked := by rw [flag, ok.locked, exists_congr occupies]
  fine := fine

theorem Ok.table (ok : Ok told s) (holder : Option P) : Ok told { s with tableLock := holder } :=
  ⟨ok.lk, ok.unique, ok.locked, ok.fine⟩

theorem Ok.setPid (ok : Ok told s) (pid : Nat) : Ok told { s with pid := pid } :=
  ⟨ok.lk, ok.unique, ok.locked, ok.fine⟩

theorem Ok.wakeup1 (ok : Ok told s) : Ok told s.wakeup1 := by
  have flag : s.wakeup1.locked = s.locked := rfl
  apply ok.of_occupies flag
  · intro q
    unfold Occupies System.wakeup1
    by_cases asleep : s.pc q = .asleep
    · simp [asleep, Pc.occupying]
    · simp [asleep]
  · intro q
    change s.lk = some q ↔ _
    rw [ok.lk q]
    unfold System.wakeup1
    by_cases asleep : s.pc q = .asleep
    · simp [asleep, Pc.holdsLk]
    · simp [asleep]
  · intro q
    have fine := ok.fine q
    unfold System.wakeup1
    by_cases asleep : s.pc q = .asleep
    · simp [asleep, Pc.Fine]
    · simpa [asleep] using fine

/-- Only the process that holds `lk->lk` knows that the flag is clear. -/
theorem Ok.fine_other (ok : Ok told s) (mine : (s.pc p).holdsLk = true) {q : P} (other : q ≠ p)
    (locked : Nat) : (s.pc q).Fine told locked (s.inside q) := by
  have fine := ok.fine q
  by_cases lock : s.pc q = .lock
  · have holder := (ok.lk q).mpr (by rw [lock]; rfl)
    rw [(ok.lk p).mpr mine] at holder
    exact absurd (Option.some.inj holder).symm other
  · unfold Pc.Fine at fine ⊢
    split <;> simp_all

/-- What `holdingsleep` reads is right exactly when nobody else has the lock. -/
theorem Ok.read_iff (ok : Ok told s) {caller : Caller} (here : s.pc p = .holdRead caller) :
    (s.locked ≠ 0 ↔ s.inside p = true) ↔ ∀ other, s.Occupies other → other = p := by
  constructor
  · intro right other occupies
    have inside := right.mp (ok.locked.mpr ⟨other, occupies⟩)
    exact ok.unique other p occupies (.inl inside)
  · intro alone
    constructor
    · intro set
      obtain ⟨other, occupies⟩ := ok.locked.mp set
      have same := alone other occupies
      subst same
      simpa [Occupies, here, Pc.occupying] using occupies
    · intro inside
      exact ok.locked.mpr ⟨p, .inl inside⟩

section Steps

variable [DecidableEq P]

theorem occupies_goto (occupying : pc.occupying = (s.pc p).occupying) (q : P) :
    (s.goto p pc).Occupies q ↔ s.Occupies q := by
  unfold Occupies goto
  by_cases same : q = p
  · subst same
    simp [occupying]
  · simp [same]

theorem fine_goto (fine : ∀ q, (s.pc q).Fine told s.locked (s.inside q))
    (here : pc.Fine told s.locked (s.inside p)) (q : P) :
    ((s.goto p pc).pc q).Fine told s.locked (s.inside q) := by
  unfold goto
  by_cases same : q = p
  · subst same
    simpa using here
  · simpa [same] using fine q

theorem Ok.goto (ok : Ok told s) (holds : pc.holdsLk = (s.pc p).holdsLk)
    (occupying : pc.occupying = (s.pc p).occupying) (here : pc.Fine told s.locked (s.inside p)) :
    Ok told (s.goto p pc) := by
  have flag : (s.goto p pc).locked = s.locked := rfl
  apply ok.of_occupies flag (occupies_goto occupying) _ (fine_goto ok.fine here)
  intro q
  change s.lk = some q ↔ _
  rw [ok.lk q]
  unfold System.goto
  by_cases same : q = p
  · subst same
    simp [holds]
  · simp [same]

theorem Ok.takeLk (ok : Ok told s) (holds : pc.holdsLk = true)
    (occupying : pc.occupying = (s.pc p).occupying) (here : pc.Fine told s.locked (s.inside p))
    (taken : s.takeLk p pc = some next) : Ok told next := by
  unfold System.takeLk at taken
  split at taken
  case isFalse => cases taken
  case isTrue free =>
    cases taken
    have flag : ({ s with lk := some p }.goto p pc).locked = s.locked := rfl
    apply ok.of_occupies flag (occupies_goto occupying) _ (fine_goto ok.fine here)
    intro q
    have none := ok.lk q
    rw [free] at none
    by_cases same : q = p
    · subst same
      simp [System.goto, holds]
    · have other : p ≠ q := fun equal => same equal.symm
      simpa [System.goto, same, other] using none

theorem Ok.dropLk (ok : Ok told s) (holds : pc.holdsLk = false)
    (occupying : pc.occupying = (s.pc p).occupying) (here : pc.Fine told s.locked (s.inside p))
    (dropped : s.dropLk p pc = some next) : Ok told next := by
  unfold System.dropLk at dropped
  split at dropped
  case isFalse => cases dropped
  case isTrue mine =>
    cases dropped
    have flag : ({ s with lk := none }.goto p pc).locked = s.locked := rfl
    apply ok.of_occupies flag (occupies_goto occupying) _ (fine_goto ok.fine here)
    intro q
    have others := ok.lk q
    rw [mine] at others
    by_cases same : q = p
    · subst same
      simp [System.goto, holds]
    · have other : p ≠ q := fun equal => same equal.symm
      simpa [System.goto, same, other] using others

/-- `lk->locked = 1` -/
theorem Ok.setFlag (ok : Ok told s) (here : s.pc p = .lock) :
    Ok told ({ s with locked := 1 }.goto p .setPid) := by
  have mine : (s.pc p).holdsLk = true := by rw [here]; rfl
  have clear : s.locked = 0 := by
    have fine := ok.fine p
    rwa [here] at fine
  have nobody (q : P) : ¬s.Occupies q := fun occupies => ok.locked.mpr ⟨q, occupies⟩ clear
  have only (q : P) (occupies : ({ s with locked := 1 }.goto p .setPid).Occupies q) : q = p := by
    by_contra other
    refine nobody q ?_
    simpa [Occupies, System.goto, other] using occupies
  refine ⟨fun q => ?_, fun q r first second => (only q first).trans (only r second).symm,
    iff_of_true (by decide : (1 : Nat) ≠ 0) ⟨p, .inr (by simp [System.goto, Pc.occupying])⟩,
    fun q => ?_⟩
  · by_cases same : q = p
    · subst same
      simpa [System.goto, Pc.holdsLk] using (ok.lk q).mpr mine
    · simpa [System.goto, same] using ok.lk q
  · by_cases same : q = p
    · subst same
      simp [System.goto, Pc.Fine]
    · simpa [System.goto, same] using ok.fine_other mine same 1

/-- `lk->locked = 0` -/
theorem Ok.clearFlag (ok : Ok told s) (here : s.pc p = .unlock) :
    Ok told ({ s with locked := 0 }.goto p .clearPid) := by
  have mine : (s.pc p).holdsLk = true := by rw [here]; rfl
  have out : s.inside p = false := by
    have fine := ok.fine p
    rwa [here] at fine
  have occupied : s.Occupies p := .inr (by rw [here]; rfl)
  have nobody (q : P) : ¬({ s with locked := 0 }.goto p .clearPid).Occupies q := by
    intro occupies
    by_cases same : q = p
    · subst same
      simp [Occupies, System.goto, out, Pc.occupying] at occupies
    · refine same (ok.unique q p ?_ occupied)
      simpa [Occupies, System.goto, same] using occupies
  refine ⟨fun q => ?_, fun q r first => absurd first (nobody q),
    iff_of_false (fun set => set rfl) (fun ⟨q, occupies⟩ => nobody q occupies), fun q => ?_⟩
  · by_cases same : q = p
    · subst same
      simpa [System.goto, Pc.holdsLk] using (ok.lk q).mpr mine
    · simpa [System.goto, same] using ok.lk q
  · by_cases same : q = p
    · subst same
      simp [System.goto, Pc.Fine]
    · simpa [System.goto, same] using ok.fine_other mine same 0

/-- The end of `acquiresleep`. -/
theorem Ok.enter (ok : Ok told s) (here : s.pc p = .acquired) :
    Ok told (({ s with lk := none }.goto p .code).setInside p true) := by
  have mine : s.lk = some p := (ok.lk p).mpr (by rw [here]; rfl)
  have flag : (({ s with lk := none }.goto p .code).setInside p true).locked = s.locked := rfl
  apply ok.of_occupies flag
  · intro q
    by_cases same : q = p
    · subst same
      simp [Occupies, System.goto, System.setInside, here, Pc.occupying]
    · simp [Occupies, System.goto, System.setInside, same]
  · intro q
    have others := ok.lk q
    rw [mine] at others
    by_cases same : q = p
    · subst same
      simp [System.goto, System.setInside, Pc.holdsLk]
    · have other : p ≠ q := fun equal => same equal.symm
      simpa [System.goto, System.setInside, same, other] using others
  · intro q
    by_cases same : q = p
    · subst same
      simp [System.goto, System.setInside, Pc.Fine]
    · simpa [System.goto, System.setInside, same] using ok.fine q

/-- The call of `releasesleep` by a process that is inside. -/
theorem Ok.leave (ok : Ok told s) (inside : s.inside p = true) (free : (s.pc p).holdsLk = false) :
    Ok told ((s.setInside p false).goto p .releaseAcquire) := by
  have flag : ((s.setInside p false).goto p .releaseAcquire).locked = s.locked := rfl
  apply ok.of_occupies flag
  · intro q
    by_cases same : q = p
    · subst same
      simp [Occupies, System.goto, System.setInside, inside, Pc.occupying]
    · simp [Occupies, System.goto, System.setInside, same]
  · intro q
    have holds := ok.lk q
    by_cases same : q = p
    · subst same
      rw [free] at holds
      simpa [System.goto, System.setInside, Pc.holdsLk] using holds
    · simpa [System.goto, System.setInside, same] using holds
  · intro q
    by_cases same : q = p
    · subst same
      simp [System.goto, System.setInside, Pc.Fine]
    · simpa [System.goto, System.setInside, same] using ok.fine q

/-- A step inside one of the functions. -/
theorem Ok.runPc (pidOf : P → Nat) (ok : Ok told s) (released : Released s (.run p))
    (alone : told → Alone s (.run p))
    (ran : s.runPc pidOf p (s.pc p) = some next) : Ok told next := by
  cases here : s.pc p with
  | code | asleep | panicked =>
      rw [here] at ran
      cases ran
  | acquire | reacquire | releaseAcquire =>
      have fine := ok.fine p
      rw [here] at ran fine
      exact ok.takeLk rfl (by rw [here]; rfl) (by trivial) ran
  | holdAcquire caller =>
      rw [here] at ran
      exact ok.takeLk rfl (by rw [here]; rfl) (by trivial) ran
  | sleepRelease | released =>
      rw [here] at ran
      exact ok.dropLk rfl (by rw [here]; rfl) (by trivial) ran
  | test =>
      rw [here] at ran
      simp only [System.runPc] at ran
      split at ran
      · cases ran
        exact ok.goto (by rw [here]; rfl) (by rw [here]; rfl) trivial
      case isFalse clear =>
        cases ran
        exact ok.goto (by rw [here]; rfl) (by rw [here]; rfl) (not_not.mp clear)
  | sleepAcquire | wakeAcquire =>
      rw [here] at ran
      simp only [System.runPc, takeTable] at ran
      split at ran
      · cases ran
        exact (ok.table (some p)).goto (by simp only [here]; rfl) (by simp only [here]; rfl) trivial
      · cases ran
  | sleepSched | wakeRelease =>
      rw [here] at ran
      cases ran
      exact (ok.table none).goto (by simp only [here]; rfl) (by simp only [here]; rfl) trivial
  | lock =>
      rw [here] at ran
      cases ran
      exact ok.setFlag here
  | setPid =>
      rw [here] at ran
      cases ran
      exact (ok.setPid (pidOf p)).goto (by simp only [here]; rfl) (by simp only [here]; rfl) trivial
  | acquired =>
      rw [here] at ran
      simp only [System.runPc, System.dropLk, (ok.lk p).mpr (by rw [here]; rfl), if_true,
        Option.map_some] at ran
      cases ran
      exact ok.enter here
  | unlock =>
      rw [here] at ran
      cases ran
      exact ok.clearFlag here
  | clearPid =>
      rw [here] at ran
      cases ran
      exact (ok.setPid 0).goto (by simp only [here]; rfl) (by simp only [here]; rfl) trivial
  | wakeScan =>
      rw [here] at ran
      cases ran
      have awake : s.wakeup1.pc p = .wakeScan := by simp [System.wakeup1, here]
      exact ok.wakeup1.goto (by rw [awake]; rfl) (by rw [awake]; rfl) trivial
  | holdRead caller =>
      rw [here] at ran
      cases ran
      exact ok.goto (by rw [here]; rfl) (by rw [here]; rfl)
        (fun told => (ok.read_iff here).mpr (alone told (by rw [here]; rfl)))
  | holdRelease caller r =>
      have answer := ok.fine p
      rw [here] at ran answer
      have after : (afterCheck caller r).holdsLk = false ∧ (afterCheck caller r).occupying = false ∧
          (afterCheck caller r).Fine told s.locked (s.inside p) := by
        unfold afterCheck
        split
        · exact ⟨rfl, rfl, trivial⟩
        · split
          case isTrue zero =>
            exact ⟨rfl, rfl, fun told => Bool.eq_false_iff.mpr fun inside =>
              (answer told).mpr inside zero⟩
          case isFalse set => exact ⟨rfl, rfl, fun told => (answer told).mp set⟩
      exact ok.dropLk after.1 (by rw [here, after.2.1]; rfl) after.2.2 ran
  | checked caller =>
      have free : (s.pc p).holdsLk = false := by rw [here]; rfl
      rw [here] at ran
      cases caller with
      | direct => cases ran
      | bwrite | iderw =>
          cases ran
          exact ok.goto (by rw [here]; rfl) (by rw [here]; rfl) trivial
      | brelse =>
          cases ran
          exact ok.leave (released (.inl here)) free
      | iunlock =>
          cases ran
          exact ok.leave (released (.inr here)) free

/-- A step keeps the invariant if the lock is released from inside, and what is told
about a process stays right if the flag is read while nobody else has the lock. -/
theorem Ok.step (pidOf : P → Nat) {label : Label P} (ok : Ok told s)
    (released : Released s label) (alone : told → Alone s label)
    (stepped : step pidOf s label = some next) : Ok told next := by
  cases label with
  | acquiresleep p | holdingsleep p caller =>
      simp only [System.step] at stepped
      split at stepped
      case isTrue here =>
        cases stepped
        exact ok.goto (by rw [here]; rfl) (by rw [here]; rfl) trivial
      case isFalse => cases stepped
  | releasesleep p =>
      simp only [System.step] at stepped
      split at stepped
      case isTrue here =>
        cases stepped
        exact ok.leave released (by rw [here]; rfl)
      case isFalse => cases stepped
  | run p => exact ok.runPc pidOf released alone stepped
  | kill p =>
      simp only [System.step] at stepped
      split at stepped
      case isTrue here =>
        cases stepped
        exact ok.goto (by rw [here]; rfl) (by rw [here]; rfl) trivial
      case isFalse => cases stepped

end Steps

/-- Whoever has passed the check of `brelse` or `iunlock` is inside. -/
theorem Ok.released {label : Label P} (ok : Ok True s) (owned : Owned s label) :
    Released s label := by
  cases label with
  | releasesleep p => exact owned
  | run p =>
      rintro (here | here)
      · exact ok.identifies.passed p _ here
      · exact ok.identifies.passed p _ here
  | acquiresleep p | holdingsleep p caller | kill p => trivial

variable [DecidableEq P]

/-- The step after which `holdingsleep` returns the wrong answer is the one that reads
the flag while another process has the lock. -/
theorem identifies_step_iff (pidOf : P → Nat) {label : Label P} (ok : Ok True s)
    (owned : Owned s label) (stepped : step pidOf s label = some next) :
    Identifies next ↔ Alone s label := by
  constructor
  · intro identifies
    cases label with
    | run p =>
        intro reads
        obtain ⟨caller, here⟩ := Pc.exists_of_reads reads
        have ran : s.runPc pidOf p (s.pc p) = some next := stepped
        rw [here] at ran
        cases ran
        have answer := identifies.answer p caller s.locked (by simp [System.goto])
        have inside : (s.goto p (.holdRelease caller s.locked)).inside p = s.inside p := rfl
        rw [inside] at answer
        exact (ok.read_iff here).mp answer
    | acquiresleep p | releasesleep p | holdingsleep p caller | kill p => trivial
  · intro alone
    exact (ok.step pidOf (ok.released owned) (fun _ => alone) stepped).identifies

/-- If the lock is always released from inside, one process at most is inside at any
time.  What `holdingsleep` returns, and who passes its checks, is right in every state
exactly if it never reads the flag while another process has the lock; the calls of
`releasesleep` itself are from inside here, those in `brelse` and `iunlock` may be any. -/
theorem holdingsleep_identifies_iff (pidOf : P → Nat) {start last : System P}
    {labels : List (Label P)} (begins : Start start)
    (ran : run (step pidOf) start labels = some last) :
    (RunMeets (step pidOf) Released start labels →
      ∀ p q, last.inside p = true → last.inside q = true → p = q) ∧
    (RunMeets (step pidOf) Owned start labels →
      ((∀ first reached, first <+: labels → run (step pidOf) start first = some reached →
          Identifies reached) ↔
        RunMeets (step pidOf) Alone start labels)) := by
  constructor
  · intro released p q first second
    have ok : Ok False last := invariant_of_runMeets
      (fun ok released stepped => ok.step pidOf released (fun told => told.elim) stepped)
      begins.ok released ran
    exact ok.unique p q (.inl first) (.inl second)
  · intro owned
    have preserved {state next : System P} {label : Label P} (ok : Ok True state)
        (owned : Owned state label) (alone : Alone state label)
        (stepped : step pidOf state label = some next) : Ok True next :=
      ok.step pidOf (ok.released owned) (fun _ => alone) stepped
    have good_iff {state next : System P} {label : Label P} (ok : Ok True state)
        (owned : Owned state label) (stepped : step pidOf state label = some next) :
        Identifies next ↔ Alone state label :=
      identifies_step_iff pidOf ok owned stepped
    exact always_iff_runMeets preserved good_iff begins.ok begins.ok.identifies owned ran

/-- The lock as it starts, and two processes. -/
def freeLock : System Bool :=
  ⟨0, 0, none, none, fun _ => .code, fun _ => false⟩

theorem freeLock_start : Start freeLock := ⟨rfl, rfl, fun _ => rfl, fun _ => rfl⟩

/-- A process acquires the lock and asks for it. -/
def acquireThenAsk : List (Label Bool) :=
  [.acquiresleep true, .run true, .run true, .run true, .run true, .run true,
    .holdingsleep true .direct, .run true, .run true]

/-- A process acquires the lock, and another one calls `brelse` and gets past its check. -/
def acquireThenBrelse : List (Label Bool) :=
  [.acquiresleep true, .run true, .run true, .run true, .run true, .run true,
    .holdingsleep false .brelse, .run false, .run false, .run false]

theorem acquireThenAsk_identifies : ∃ last,
    run (step fun _ => 1) freeLock acquireThenAsk = some last ∧ Identifies last := by
  have ran : (run (step fun _ => 1) freeLock acquireThenAsk).isSome = true := by decide
  obtain ⟨last, ran⟩ := Option.isSome_iff_exists.mp ran
  have both := holdingsleep_identifies_iff (fun _ => 1) freeLock_start ran
  have alone : RunMeets (step fun _ => 1) Alone freeLock acquireThenAsk := by decide
  have owned : RunMeets (step fun _ => 1) Owned freeLock acquireThenAsk := by decide
  exact ⟨last, ran, (both.2 owned).mpr alone acquireThenAsk last (List.prefix_refl _) ran⟩

/-- `brelse` lets a process that does not hold the lock release the lock of another. -/
theorem acquireThenBrelse_passes : Start freeLock ∧ ∃ last,
    run (step fun _ => 1) freeLock acquireThenBrelse = some last ∧
      last.pc false = .checked .brelse ∧ last.inside false = false ∧
      last.inside true = true ∧ ¬Identifies last := by
  have ran : ((run (step fun _ => 1) freeLock acquireThenBrelse).map fun last =>
      (last.pc false, last.inside false, last.inside true)) =
        some (.checked .brelse, false, true) := by decide
  obtain ⟨last, ran, ends⟩ := Option.map_eq_some_iff.mp ran
  simp only [Prod.mk.injEq] at ends
  refine ⟨freeLock_start, last, ran, ends.1, ends.2.1, ends.2.2, fun identifies => ?_⟩
  have inside := identifies.passed false .brelse ends.1
  rw [ends.2.1] at inside
  cases inside

end System

end Xv6.SleepLock
