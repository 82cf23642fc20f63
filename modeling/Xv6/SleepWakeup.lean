import Mathlib.Algebra.GroupWithZero.Nat
import Xv6.LabelledRuns
import Xv6.ProcTable

/-!
# Sleep and wakeup

`sleep` and `wakeup` of `proc.c` at the granularity of lock operations, used by
any number of processes with any number of channels.  Each channel has a
condition and a condition lock other than `ptable.lock`.  A waiter tests the
condition under its lock in a loop around `sleep`; whoever makes the condition
true does so under the lock and owes a `wakeup` from then on.
-/

namespace Xv6.Sleep

open LabelledRuns

/-- The holder of `ptable.lock`: a process, or the scheduler of some CPU. -/
inductive TableHolder (slots : Nat) where
  | process (p : Fin slots)
  | scheduler
  deriving DecidableEq

/-- Where a process stands. -/
inductive Pc (Chan : Type) where
  /-- outside the functions below -/
  | code
  /-- the waiter's test, under the condition lock -/
  | test (chan : Chan)
  /-- `sleep`: `acquire(&ptable.lock)` -/
  | sleepAcquire (chan : Chan)
  /-- `sleep`: `release(lk)` -/
  | sleepRelease (chan : Chan)
  /-- `sleep`: `p->chan = chan; p->state = SLEEPING; sched()` -/
  | sleepSched (chan : Chan)
  /-- `sleep`: `p->chan = 0`, once scheduled again -/
  | sleepTidy (chan : Chan)
  /-- `sleep`: `release(&ptable.lock)` -/
  | sleepUnlock (chan : Chan)
  /-- `sleep`: `acquire(lk)` -/
  | sleepReacquire (chan : Chan)
  /-- `wakeup`: `acquire(&ptable.lock)` -/
  | wakeAcquire (chan : Chan)
  /-- `wakeup`: `wakeup1(chan)` -/
  | wakeScan (chan : Chan)
  /-- `kill`: `acquire(&ptable.lock)` -/
  | killAcquire (pid : BitVec 32)
  /-- `kill`: the loop -/
  | killScan (pid : BitVec 32)
  /-- `yield`: `acquire(&ptable.lock)` -/
  | yieldAcquire
  /-- `yield`: `myproc()->state = RUNNABLE; sched()` -/
  | yieldSched
  /-- `release(&ptable.lock)` at the end of `wakeup`, `kill` and `yield`, and
  in `forkret` -/
  | unlock

def Pc.isCode {Chan : Type} : Pc Chan → Bool
  | .code => true
  | _ => false

/-- The processes, the locks and the conditions.  `ncli` counts the condition
locks that a process holds, `changes` how often the condition of a channel has
become true, and `owes` lists the changes that a process has made without
having called `wakeup` for them. -/
structure System (slots : Nat) (Chan Lock : Type) where
  ptable : ProcTable slots Chan
  tableLock : Option (TableHolder slots)
  lock : Lock → Option (Fin slots)
  ncli : Fin slots → Nat
  cond : Chan → Bool
  pc : Fin slots → Pc Chan
  changes : Chan → Nat
  owes : Fin slots → List (Chan × Nat)

/-- What happens next: a step of a process outside the functions above, the
next step inside one, or a step of the scheduler. -/
inductive Label (slots : Nat) (Chan Lock : Type) where
  | acquire (p : Fin slots) (l : Lock)
  | release (p : Fin slots) (l : Lock)
  | makeTrue (p : Fin slots) (chan : Chan)
  | makeFalse (p : Fin slots) (chan : Chan)
  | wait (p : Fin slots) (chan : Chan)
  | wakeup (p : Fin slots) (chan : Chan)
  | kill (p : Fin slots) (pid : BitVec 32)
  | yield (p : Fin slots)
  | run (p : Fin slots)
  | schedulerAcquire
  | schedulerRelease
  | dispatch (p : Fin slots)

section

variable {slots : Nat} {Chan Lock : Type} [DecidableEq Chan] [DecidableEq Lock]

namespace System

/-- The process runs outside the functions above. -/
def InCode (s : System slots Chan Lock) (p : Fin slots) : Prop :=
  (s.ptable p).state = .running ∧ (s.pc p).isCode = true

instance (s : System slots Chan Lock) (p : Fin slots) : Decidable (s.InCode p) :=
  inferInstanceAs (Decidable (_ ∧ _))

def goto (s : System slots Chan Lock) (p : Fin slots) (pc : Pc Chan) :
    System slots Chan Lock :=
  { s with pc := Function.update s.pc p pc }

/-- `acquire(l)`; not enabled while the lock is held. -/
def acquire (s : System slots Chan Lock) (p : Fin slots) (l : Lock) :
    Option (System slots Chan Lock) :=
  if s.lock l = none then
    some { s with
      lock := Function.update s.lock l (some p)
      ncli := Function.update s.ncli p (s.ncli p + 1) }
  else none

/-- `release(l)`; a process that does not hold the lock panics. -/
def release (s : System slots Chan Lock) (p : Fin slots) (l : Lock) :
    Option (System slots Chan Lock) :=
  if s.lock l = some p then
    some { s with
      lock := Function.update s.lock l none
      ncli := Function.update s.ncli p (s.ncli p - 1) }
  else none

/-- `acquire(&ptable.lock)`; not enabled while the lock is held. -/
def acquireTable (s : System slots Chan Lock) (p : Fin slots) (pc : Pc Chan) :
    Option (System slots Chan Lock) :=
  if s.tableLock = none then
    some ({ s with tableLock := some (.process p) }.goto p pc)
  else none

/-- `release(&ptable.lock)`; a process that does not hold it panics. -/
def releaseTable (s : System slots Chan Lock) (p : Fin slots) (pc : Pc Chan) :
    Option (System slots Chan Lock) :=
  if s.tableLock = some (.process p) then
    some ({ s with tableLock := none }.goto p pc)
  else none

/-- `wakeup1(chan)` by a process, which then owes no wakeup of the channel. -/
def wakeup1 (s : System slots Chan Lock) (p : Fin slots) (chan : Chan) :
    System slots Chan Lock :=
  { s with
    ptable := s.ptable.wakeup1 chan
    owes := Function.update s.owes p
      ((s.owes p).filter fun change => change.1 ≠ chan) }

/-- The condition of a channel becomes true. -/
def makeTrue (s : System slots Chan Lock) (p : Fin slots) (chan : Chan) :
    System slots Chan Lock :=
  { s with
    cond := Function.update s.cond chan true
    changes := Function.update s.changes chan (s.changes chan + 1)
    owes := Function.update s.owes p ((chan, s.changes chan + 1) :: s.owes p) }

/-- The next step of a process inside one of the functions; `lk` is the
condition lock of each channel.  `sched` panics while other locks are held. -/
def runPc (lk : Chan → Lock) (s : System slots Chan Lock) (p : Fin slots) :
    Pc Chan → Option (System slots Chan Lock)
  | .code => none
  | .test chan =>
      if s.cond chan then some (s.goto p .code)
      else some (s.goto p (.sleepAcquire chan))
  | .sleepAcquire chan => s.acquireTable p (.sleepRelease chan)
  | .sleepRelease chan =>
      (s.release p (lk chan)).map fun s => s.goto p (.sleepSched chan)
  | .sleepSched chan =>
      if s.ncli p = 0 then
        some ({ s with
          ptable := s.ptable.fallAsleep p chan
          tableLock := some .scheduler }.goto p (.sleepTidy chan))
      else none
  | .sleepTidy chan =>
      some ({ s with ptable := s.ptable.tidyUp p }.goto p (.sleepUnlock chan))
  | .sleepUnlock chan => s.releaseTable p (.sleepReacquire chan)
  | .sleepReacquire chan =>
      (s.acquire p (lk chan)).map fun s => s.goto p (.test chan)
  | .wakeAcquire chan => s.acquireTable p (.wakeScan chan)
  | .wakeScan chan => some ((s.wakeup1 p chan).goto p .unlock)
  | .killAcquire pid => s.acquireTable p (.killScan pid)
  | .killScan pid =>
      some ({ s with ptable := (s.ptable.kill pid).1 }.goto p .unlock)
  | .yieldAcquire => s.acquireTable p .yieldSched
  | .yieldSched =>
      if s.ncli p = 0 then
        some ({ s with
          ptable := s.ptable.setState p .runnable
          tableLock := some .scheduler }.goto p .unlock)
      else none
  | .unlock => s.releaseTable p .code

/-- One step. -/
def step (lk : Chan → Lock) (s : System slots Chan Lock) :
    Label slots Chan Lock → Option (System slots Chan Lock)
  | .acquire p l =>
      if s.InCode p then s.acquire p l else none
  | .release p l =>
      if s.InCode p then s.release p l else none
  | .makeTrue p chan =>
      if s.InCode p ∧ s.lock (lk chan) = some p ∧ s.cond chan = false then
        some (s.makeTrue p chan)
      else none
  | .makeFalse p chan =>
      if s.InCode p then
        some { s with cond := Function.update s.cond chan false }
      else none
  | .wait p chan =>
      if s.InCode p ∧ s.lock (lk chan) = some p then
        some (s.goto p (.test chan))
      else none
  | .wakeup p chan =>
      if s.InCode p then some (s.goto p (.wakeAcquire chan)) else none
  | .kill p pid =>
      if s.InCode p then some (s.goto p (.killAcquire pid)) else none
  | .yield p =>
      if s.InCode p ∧ s.ncli p = 0 then some (s.goto p .yieldAcquire) else none
  | .run p =>
      if (s.ptable p).state = .running then s.runPc lk p (s.pc p) else none
  | .schedulerAcquire =>
      if s.tableLock = none then some { s with tableLock := some .scheduler }
      else none
  | .schedulerRelease =>
      if s.tableLock = some .scheduler then some { s with tableLock := none }
      else none
  | .dispatch p =>
      if s.tableLock = some .scheduler ∧ (s.ptable p).state = .runnable then
        some { s with
          ptable := s.ptable.setState p .running
          tableLock := some (.process p) }
      else none

/-- All locks are free, nobody sleeps, and nobody owes a wakeup. -/
structure Start (s : System slots Chan Lock) : Prop where
  tableLock : s.tableLock = none
  lock : ∀ l, s.lock l = none
  ncli : ∀ p, s.ncli p = 0
  pc : ∀ p, s.pc p = .code ∨ s.pc p = .unlock
  awake : ∀ p, (s.ptable p).state ≠ .sleeping
  owes : ∀ p, s.owes p = []

/-- While the locks are free, a process sleeps on a channel whose condition is
true only if some process has yet to call `wakeup` for the change that made it
true. -/
def NoLostWakeup (lk : Chan → Lock) (s : System slots Chan Lock) : Prop :=
  ∀ q chan, s.ptable.Asleep q chan → s.cond chan = true →
    s.lock (lk chan) = none → s.tableLock = none →
    ∃ p, (chan, s.changes chan) ∈ s.owes p

end System

end

variable {slots : Nat} {Chan Lock : Type}

/-- The process holds the condition lock of this channel at this point. -/
def Pc.holdsLock : Pc Chan → Chan → Prop
  | .test chan, other | .sleepAcquire chan, other | .sleepRelease chan, other =>
      chan = other
  | _, _ => False

/-- The process has found the condition false and still holds its lock. -/
def Pc.tested : Pc Chan → Chan → Prop
  | .sleepAcquire chan, other | .sleepRelease chan, other => chan = other
  | _, _ => False

/-- The process holds `ptable.lock` at this point. -/
def Pc.holdsTable : Pc Chan → Prop
  | .sleepRelease _ | .sleepSched _ | .wakeScan _ | .killScan _ | .yieldSched =>
      True
  | _ => False

/-- The process is about to fall asleep on this channel. -/
def Pc.fallsAsleep : Pc Chan → Chan → Prop
  | .sleepSched chan, other => chan = other
  | _, _ => False

/-- The invariant: whoever sleeps, or has released its condition lock in order
to sleep, is owed a wakeup when its condition is true. -/
structure WakeupOk (lk : Chan → Lock) (s : System slots Chan Lock) : Prop where
  lock : ∀ p chan, (s.pc p).holdsLock chan → s.lock (lk chan) = some p
  table : ∀ p, (s.pc p).holdsTable → s.tableLock = some (.process p)
  tested : ∀ p chan, (s.pc p).tested chan → s.cond chan = false
  owed : ∀ q chan, s.ptable.Asleep q chan ∨ (s.pc q).fallsAsleep chan →
    s.cond chan = true → ∃ p, (chan, s.changes chan) ∈ s.owes p

namespace System

variable {s next : System slots Chan Lock} {p : Fin slots} {l : Lock}

theorem pc_goto_self (s : System slots Chan Lock) (p : Fin slots)
    (pc : Pc Chan) : (s.goto p pc).pc p = pc :=
  Function.update_self _ _ _

theorem lock_acquire [DecidableEq Lock] (acquired : s.acquire p l = some next) :
    next.lock l = some p := by
  unfold acquire at acquired
  split at acquired <;> cases acquired
  exact Function.update_self _ _ _

theorem release_goto [DecidableEq Lock] {pc : Pc Chan}
    (released : s.release p l = some next) :
    (s.goto p pc).release p l = some (next.goto p pc) := by
  unfold release at released ⊢
  split at released <;> cases released
  rename_i mine
  exact if_pos mine

end System

theorem Pc.holdsLock_of_tested {pc : Pc Chan} {chan : Chan}
    (tested : pc.tested chan) : pc.holdsLock chan := by
  cases pc <;> first | exact tested | exact tested.elim

theorem Pc.holdsTable_of_fallsAsleep {pc : Pc Chan} {chan : Chan}
    (falls : pc.fallsAsleep chan) : pc.holdsTable := by
  cases pc <;> trivial

theorem Pc.eq_code {pc : Pc Chan} (code : pc.isCode = true) : pc = .code := by
  cases pc <;> first | rfl | cases code

namespace WakeupOk

variable {lk : Chan → Lock} {s next : System slots Chan Lock} {p : Fin slots}

theorem goto (ok : WakeupOk lk s) {pc : Pc Chan}
    (lock : ∀ chan, pc.holdsLock chan → s.lock (lk chan) = some p)
    (table : pc.holdsTable → s.tableLock = some (.process p))
    (tested : ∀ chan, pc.tested chan → s.cond chan = false)
    (owed : ∀ chan, pc.fallsAsleep chan → s.cond chan = true →
      ∃ q, (chan, s.changes chan) ∈ s.owes q) : WakeupOk lk (s.goto p pc) := by
  have self : (s.goto p pc).pc p = pc := Function.update_self _ _ _
  have others {q : Fin slots} (other : q ≠ p) : (s.goto p pc).pc q = s.pc q :=
    Function.update_of_ne other _ _
  refine ⟨fun q => ?_, fun q => ?_, fun q => ?_, fun q chan => ?_⟩
  · by_cases here : q = p
    · subst here
      rw [self]
      exact lock
    · rw [others here]
      exact ok.lock q
  · by_cases here : q = p
    · subst here
      rw [self]
      exact table
    · rw [others here]
      exact ok.table q
  · by_cases here : q = p
    · subst here
      rw [self]
      exact tested
    · rw [others here]
      exact ok.tested q
  · by_cases here : q = p
    · subst here
      rw [self]
      rintro (asleep | falls)
      · exact ok.owed q chan (.inl asleep)
      · exact owed chan falls
    · rw [others here]
      exact ok.owed q chan

/-- A process that goes on where it needs no lock. -/
theorem goto_free (ok : WakeupOk lk s) {pc : Pc Chan}
    (lock : ∀ chan, ¬ pc.holdsLock chan) (table : ¬ pc.holdsTable) :
    WakeupOk lk (s.goto p pc) :=
  ok.goto (fun chan holds => absurd holds (lock chan))
    (fun holds => absurd holds table)
    (fun chan tested => absurd (Pc.holdsLock_of_tested tested) (lock chan))
    fun _ falls => absurd (Pc.holdsTable_of_fallsAsleep falls) table

theorem acquire [DecidableEq Lock] (ok : WakeupOk lk s) {l : Lock}
    (acquired : s.acquire p l = some next) : WakeupOk lk next := by
  unfold System.acquire at acquired
  split at acquired <;> cases acquired
  rename_i free
  refine ⟨fun q chan holds => ?_, ok.table, ok.tested, ok.owed⟩
  have held := ok.lock q chan holds
  have apart : lk chan ≠ l := by
    intro same
    rw [same, free] at held
    cases held
  exact (Function.update_of_ne apart _ _).trans held

theorem release [DecidableEq Lock] (ok : WakeupOk lk s) {l : Lock}
    (unneeded : ∀ chan, ¬ (s.pc p).holdsLock chan)
    (released : s.release p l = some next) : WakeupOk lk next := by
  unfold System.release at released
  split at released <;> cases released
  rename_i mine
  refine ⟨fun q chan holds => ?_, ok.table, ok.tested, ok.owed⟩
  have held := ok.lock q chan holds
  have apart : lk chan ≠ l := by
    intro same
    rw [same, mine] at held
    cases held
    exact unneeded chan holds
  exact (Function.update_of_ne apart _ _).trans held

/-- `ptable.lock` changes hands while no process needs it. -/
theorem setTable (ok : WakeupOk lk s) {holder : Option (TableHolder slots)}
    (unneeded : ∀ q, ¬ (s.pc q).holdsTable) :
    WakeupOk lk { s with tableLock := holder } :=
  ⟨ok.lock, fun q holds => absurd holds (unneeded q), ok.tested, ok.owed⟩

theorem unneeded_of_free (ok : WakeupOk lk s)
    (held : ∀ q, s.tableLock ≠ some (.process q)) (q : Fin slots) :
    ¬ (s.pc q).holdsTable :=
  fun holds => held q (ok.table q holds)

theorem unneeded_of_mine (ok : WakeupOk lk s)
    (mine : s.tableLock = some (.process p)) (done : ¬ (s.pc p).holdsTable)
    (q : Fin slots) : ¬ (s.pc q).holdsTable := by
  intro holds
  cases mine.symm.trans (ok.table q holds)
  exact done holds

/-- A change of the process table that puts nobody to sleep. -/
theorem ptable (ok : WakeupOk lk s) {t : ProcTable slots Chan}
    (asleep : ∀ q chan, t.Asleep q chan → s.ptable.Asleep q chan) :
    WakeupOk lk { s with ptable := t } :=
  ⟨ok.lock, ok.table, ok.tested, fun q chan sleeping =>
    ok.owed q chan (sleeping.imp_left (asleep q chan))⟩

theorem fallAsleep (ok : WakeupOk lk s) {chan : Chan}
    (falls : (s.pc p).fallsAsleep chan) :
    WakeupOk lk { s with ptable := s.ptable.fallAsleep p chan } := by
  refine ⟨ok.lock, ok.table, ok.tested, fun q other sleeping => ?_⟩
  rcases sleeping with asleep | falling
  · rcases ProcTable.asleep_fallAsleep asleep with ⟨rfl, rfl⟩ | before
    · exact ok.owed q other (.inr falls)
    · exact ok.owed q other (.inl before)
  · exact ok.owed q other (.inr falling)

/-- `wakeup1` leaves nobody asleep on the channel, and nobody is between the
release of its condition lock and its sleep: that process would hold
`ptable.lock`. -/
theorem wakeup1 [DecidableEq Chan] (ok : WakeupOk lk s) {chan : Chan}
    (scanning : s.pc p = .wakeScan chan) : WakeupOk lk (s.wakeup1 p chan) := by
  have mine : s.tableLock = some (.process p) :=
    ok.table p (by rw [scanning]; trivial)
  refine ⟨ok.lock, ok.table, ok.tested, fun q other sleeping holds => ?_⟩
  have apart : other ≠ chan := by
    rintro rfl
    rcases sleeping with asleep | falls
    · exact ProcTable.not_asleep_wakeup1 _ _ _ asleep
    · cases mine.symm.trans (ok.table q (Pc.holdsTable_of_fallsAsleep falls))
      change (s.pc p).fallsAsleep other at falls
      rw [scanning] at falls
      exact falls
  obtain ⟨r, owing⟩ := ok.owed q other
    (sleeping.imp_left ProcTable.asleep_of_asleep_wakeup1) holds
  refine ⟨r, ?_⟩
  change (other, s.changes other) ∈ Function.update s.owes p _ r
  by_cases here : r = p
  · subst here
    rw [Function.update_self]
    exact List.mem_filter.mpr ⟨owing, by simpa using apart⟩
  · rwa [Function.update_of_ne here]

/-- A condition becomes true under its lock: nobody can be between the test
and the release of the lock. -/
theorem makeTrue [DecidableEq Chan] (ok : WakeupOk lk s) {chan : Chan}
    (code : s.pc p = .code) (held : s.lock (lk chan) = some p) :
    WakeupOk lk (s.makeTrue p chan) := by
  refine ⟨ok.lock, ok.table, fun q other tested => ?_,
    fun q other sleeping holds => ?_⟩
  · have apart : other ≠ chan := by
      rintro rfl
      cases held.symm.trans (ok.lock q other (Pc.holdsLock_of_tested tested))
      change (s.pc p).tested other at tested
      rw [code] at tested
      exact tested
    exact (Function.update_of_ne apart _ _).trans (ok.tested q other tested)
  · change ∃ r, (other, Function.update s.changes chan _ other) ∈
      Function.update s.owes p _ r
    by_cases here : other = chan
    · subst here
      refine ⟨p, ?_⟩
      rw [Function.update_self, Function.update_self]
      exact List.mem_cons_self
    · change Function.update s.cond chan true other = true at holds
      rw [Function.update_of_ne here] at holds ⊢
      obtain ⟨r, owing⟩ := ok.owed q other sleeping holds
      refine ⟨r, ?_⟩
      by_cases same : r = p
      · subst same
        rw [Function.update_self]
        exact List.mem_cons_of_mem _ owing
      · rwa [Function.update_of_ne same]

theorem makeFalse [DecidableEq Chan] (ok : WakeupOk lk s) (chan : Chan) :
    WakeupOk lk { s with cond := Function.update s.cond chan false } := by
  refine ⟨ok.lock, ok.table, fun q other tested => ?_,
    fun q other sleeping holds => ?_⟩
  · by_cases here : other = chan
    · subst here
      exact Function.update_self _ _ _
    · exact (Function.update_of_ne here _ _).trans (ok.tested q other tested)
  · by_cases here : other = chan
    · subst here
      simp at holds
    · change Function.update s.cond chan false other = true at holds
      rw [Function.update_of_ne here] at holds
      exact ok.owed q other sleeping holds

theorem acquireTable (ok : WakeupOk lk s) {pc : Pc Chan}
    (lock : ∀ chan, pc.holdsLock chan → s.lock (lk chan) = some p)
    (tested : ∀ chan, pc.tested chan → s.cond chan = false)
    (awake : ∀ chan, ¬ pc.fallsAsleep chan)
    (acquired : s.acquireTable p pc = some next) : WakeupOk lk next := by
  unfold System.acquireTable at acquired
  split at acquired <;> cases acquired
  rename_i free
  have taken : WakeupOk lk { s with tableLock := some (.process p) } :=
    ok.setTable (ok.unneeded_of_free (by simp [free]))
  exact taken.goto lock (fun _ => rfl) tested
    fun chan falls => absurd falls (awake chan)

theorem releaseTable (ok : WakeupOk lk s) {pc : Pc Chan}
    (done : ¬ (s.pc p).holdsTable) (lock : ∀ chan, ¬ pc.holdsLock chan)
    (table : ¬ pc.holdsTable)
    (released : s.releaseTable p pc = some next) : WakeupOk lk next := by
  unfold System.releaseTable at released
  split at released <;> cases released
  rename_i mine
  have freed : WakeupOk lk { s with tableLock := none } :=
    ok.setTable (ok.unneeded_of_mine mine done)
  exact freed.goto_free lock table

end WakeupOk

theorem start_wakeupOk {lk : Chan → Lock} {s : System slots Chan Lock}
    (start : s.Start) : WakeupOk lk s := by
  have calm (p : Fin slots) : (∀ chan, ¬ (s.pc p).holdsLock chan) ∧
      ¬ (s.pc p).holdsTable := by
    rcases start.pc p with code | unlocking
    · rw [code]
      exact ⟨fun _ => id, id⟩
    · rw [unlocking]
      exact ⟨fun _ => id, id⟩
  refine ⟨fun p chan holds => ?_, fun p holds => ?_, fun p chan tested => ?_,
    fun p chan sleeping => ?_⟩
  · exact absurd holds ((calm p).1 chan)
  · exact absurd holds (calm p).2
  · exact absurd (Pc.holdsLock_of_tested tested) ((calm p).1 chan)
  · rcases sleeping with asleep | falls
    · exact absurd asleep.1 (start.awake p)
    · exact absurd (Pc.holdsTable_of_fallsAsleep falls) (calm p).2

section

variable [DecidableEq Chan] [DecidableEq Lock]

/-- One step inside `sleep`, `wakeup`, `kill` or `yield`. -/
theorem runPc_wakeupOk {lk : Chan → Lock} {s next : System slots Chan Lock}
    {p : Fin slots} (ok : WakeupOk lk s)
    (stepped : s.runPc lk p (s.pc p) = some next) : WakeupOk lk next := by
  generalize here : s.pc p = pc at stepped
  cases pc with
  | code => cases stepped
  | test chan =>
      have held : s.lock (lk chan) = some p := ok.lock p chan (by rw [here]; rfl)
      simp only [System.runPc] at stepped
      split at stepped <;> cases stepped
      · exact ok.goto_free (fun _ => id) id
      · rename_i isFalse
        refine ok.goto (fun other same => ?_) (by rintro ⟨⟩)
          (fun other same => ?_) (by rintro _ ⟨⟩)
        · cases same
          exact held
        · cases same
          exact Bool.not_eq_true _ ▸ isFalse
  | sleepAcquire chan =>
      refine ok.acquireTable (fun other same => ?_) (fun other same => ?_)
        (fun _ => id) stepped
      · cases same
        exact ok.lock p chan (by rw [here]; rfl)
      · cases same
        exact ok.tested p chan (by rw [here]; rfl)
  | sleepRelease chan =>
      have mine : s.tableLock = some (.process p) :=
        ok.table p (by rw [here]; trivial)
      have isFalse : s.cond chan = false := ok.tested p chan (by rw [here]; rfl)
      have ready : WakeupOk lk (s.goto p (.sleepSched chan)) := by
        refine ok.goto (by rintro _ ⟨⟩) (fun _ => mine) (by rintro _ ⟨⟩)
          fun other same holds => ?_
        cases same
        rw [isFalse] at holds
        cases holds
      obtain ⟨released, released_eq, rfl⟩ := Option.map_eq_some_iff.mp stepped
      refine ready.release (p := p) (l := lk chan) (fun other => ?_) ?_
      · rw [System.pc_goto_self]
        exact id
      · exact System.release_goto released_eq
  | sleepSched chan =>
      have mine : s.tableLock = some (.process p) :=
        ok.table p (by rw [here]; trivial)
      simp only [System.runPc] at stepped
      split at stepped <;> cases stepped
      have asleep : WakeupOk lk ({ s with ptable := s.ptable.fallAsleep p chan }.goto
          p (.sleepTidy chan)) :=
        (ok.fallAsleep (by rw [here]; rfl)).goto_free (fun _ => id) id
      exact asleep.setTable
        (asleep.unneeded_of_mine mine (by rw [System.pc_goto_self]; exact id))
  | sleepTidy chan =>
      cases stepped
      refine (ok.ptable fun q other asleep => ?_).goto_free (fun _ => id) id
      by_cases same : q = p
      · subst same
        simp [ProcTable.Asleep, ProcTable.tidyUp] at asleep
      · simpa [ProcTable.Asleep, ProcTable.tidyUp, same] using asleep
  | sleepUnlock chan =>
      exact ok.releaseTable (by rw [here]; exact id) (fun _ => id) id stepped
  | sleepReacquire chan =>
      obtain ⟨acquired, acquired_eq, rfl⟩ := Option.map_eq_some_iff.mp stepped
      refine (ok.acquire acquired_eq).goto (fun other same => ?_) (by rintro ⟨⟩)
        (by rintro _ ⟨⟩) (by rintro _ ⟨⟩)
      cases same
      exact System.lock_acquire acquired_eq
  | wakeAcquire chan =>
      exact ok.acquireTable (fun _ => False.elim) (fun _ => False.elim)
        (fun _ => id) stepped
  | wakeScan chan =>
      cases stepped
      exact (ok.wakeup1 here).goto_free (fun _ => id) id
  | killAcquire pid =>
      exact ok.acquireTable (fun _ => False.elim) (fun _ => False.elim)
        (fun _ => id) stepped
  | killScan pid =>
      cases stepped
      exact (ok.ptable fun q other => ProcTable.asleep_of_asleep_kill).goto_free
        (fun _ => id) id
  | yieldAcquire =>
      exact ok.acquireTable (fun _ => False.elim) (fun _ => False.elim)
        (fun _ => id) stepped
  | yieldSched =>
      have mine : s.tableLock = some (.process p) :=
        ok.table p (by rw [here]; trivial)
      simp only [System.runPc] at stepped
      split at stepped <;> cases stepped
      have yielded : WakeupOk lk
          ({ s with ptable := s.ptable.setState p .runnable }.goto p .unlock) :=
        (ok.ptable fun q other =>
          ProcTable.asleep_of_asleep_setState (by decide)).goto_free
            (fun _ => id) id
      exact yielded.setTable
        (yielded.unneeded_of_mine mine (by rw [System.pc_goto_self]; exact id))
  | unlock =>
      exact ok.releaseTable (by rw [here]; exact id) (fun _ => id) id stepped

variable {lk : Chan → Lock} {s next : System slots Chan Lock}

theorem step_wakeupOk {label : Label slots Chan Lock} (ok : WakeupOk lk s)
    (stepped : s.step lk label = some next) : WakeupOk lk next := by
  cases label with
  | acquire p l =>
      simp only [System.step] at stepped
      split at stepped
      · exact ok.acquire stepped
      · cases stepped
  | release p l =>
      simp only [System.step] at stepped
      split at stepped
      · rename_i inCode
        refine ok.release (fun chan => ?_) stepped
        rw [Pc.eq_code inCode.2]
        exact id
      · cases stepped
  | makeTrue p chan =>
      simp only [System.step] at stepped
      split at stepped <;> cases stepped
      rename_i guard
      exact ok.makeTrue (Pc.eq_code guard.1.2) guard.2.1
  | makeFalse p chan =>
      simp only [System.step] at stepped
      split at stepped <;> cases stepped
      exact ok.makeFalse chan
  | wait p chan =>
      simp only [System.step] at stepped
      split at stepped <;> cases stepped
      rename_i guard
      refine ok.goto (fun other same => ?_) nofun nofun nofun
      cases same
      exact guard.2
  | wakeup p chan | kill p pid | yield p =>
      simp only [System.step] at stepped
      split at stepped <;> cases stepped
      exact ok.goto_free (fun _ => id) id
  | run p =>
      simp only [System.step] at stepped
      split at stepped
      · exact runPc_wakeupOk ok stepped
      · cases stepped
  | schedulerAcquire =>
      simp only [System.step] at stepped
      split at stepped <;> cases stepped
      rename_i free
      exact ok.setTable (ok.unneeded_of_free (by simp [free]))
  | schedulerRelease =>
      simp only [System.step] at stepped
      split at stepped <;> cases stepped
      rename_i held
      exact ok.setTable (ok.unneeded_of_free (by simp [held]))
  | dispatch p =>
      simp only [System.step] at stepped
      split at stepped <;> cases stepped
      rename_i guard
      have scheduled : WakeupOk lk
          { s with ptable := s.ptable.setState p .running } :=
        ok.ptable fun q other =>
          ProcTable.asleep_of_asleep_setState (by decide)
      exact scheduled.setTable
        (scheduled.unneeded_of_free (by simp [guard.1]))

/-- No interleaving of `sleep`, `wakeup`, `kill`, `yield` and the schedulers
loses a wakeup. -/
theorem noLostWakeup_of_run {s final : System slots Chan Lock}
    {labels : List (Label slots Chan Lock)} (lk : Chan → Lock)
    (start : s.Start) (ran : run (System.step lk) s labels = some final) :
    final.NoLostWakeup lk := by
  have ok : WakeupOk lk final :=
    invariant_of_run (fun ok stepped => step_wakeupOk ok stepped)
      (start_wakeupOk start) ran
  intro q chan asleep holds lockFree tableFree
  exact ok.owed q chan (.inl asleep) holds

end

local instance twoRunning_neZero : NeZero 2 := ⟨by decide⟩

/-- Two running processes, one channel and one lock. -/
def twoRunning : System 2 Unit Unit where
  ptable p :=
    { state := .running
      pid := if p = 0 then 1 else 2
      parent := none
      chan := none
      killed := false
      kstack := some p
      scheduler := 0 }
  tableLock := none
  lock _ := none
  ncli _ := 0
  cond _ := false
  pc _ := .code
  changes _ := 0
  owes _ := []

/-- The first process falls asleep, then the second makes the condition true
and has not called `wakeup` yet. -/
def sleepThenMakeTrue : List (Label 2 Unit Unit) :=
  [.acquire 0 (), .wait 0 (), .run 0, .run 0, .run 0, .run 0, .schedulerRelease,
    .acquire 1 (), .makeTrue 1 (), .release 1 ()]

theorem sleepThenMakeTrue_noLostWakeup :
    ∃ last, run (System.step id) twoRunning sleepThenMakeTrue = some last ∧
      last.ptable.Asleep 0 () ∧ last.cond () = true ∧ last.lock () = none ∧
      last.tableLock = none ∧ last.owes 1 = [((), 1)] ∧
      last.NoLostWakeup id := by
  have reached : ((run (System.step id) twoRunning sleepThenMakeTrue).map
      fun s => (decide (s.ptable.Asleep 0 ()), s.cond (), s.lock (),
        s.tableLock, s.owes 1)) = some (true, true, none, none, [((), 1)]) := by
    rfl
  obtain ⟨last, ran, fields⟩ := Option.map_eq_some_iff.mp reached
  simp only [Prod.mk.injEq, decide_eq_true_eq] at fields
  obtain ⟨asleep, holds, lockFree, tableFree, owing⟩ := fields
  have start : twoRunning.Start :=
    ⟨rfl, fun _ => rfl, fun _ => rfl, fun _ => .inl rfl, nofun, fun _ => rfl⟩
  exact ⟨last, ran, asleep, holds, lockFree, tableFree, owing,
    noLostWakeup_of_run id start ran⟩

end Xv6.Sleep
