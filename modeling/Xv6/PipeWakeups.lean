import Xv6.PipeContents

/-!
# Who sleeps on a pipe

A reader sleeps only on an empty pipe that is open for writing, and a writer
only on a full pipe that is open for reading, except while the holder of the
lock is about to wake them up.  One path breaks this: a killed writer that
finds the pipe full returns without the `wakeup` it owes the readers for the
bytes it has stored.
-/

namespace Xv6.Pipes

open LabelledRuns

variable {slots : Nat}

/-- The process holds the lock at this point. -/
def Call.critical : Call → Bool
  | .write .loop _ | .write .wakeReaders _ | .write .sleep _ | .write .wake _
  | .write .release _ => true
  | .read .empty _ | .read .sleep _ | .read .copy _ | .read .wake _
  | .read .release _ => true
  | .close .clear _ | .close .wake _ | .close .release _ => true
  | _ => false

/-- The call is made through a descriptor of this end. -/
def Call.uses : Call → PipeEnd → Bool
  | .write _ _, .writing | .read _ _, .reading => true
  | _, _ => false

/-- The last descriptor of this end has been closed by the call. -/
def Call.closes : Call → PipeEnd → Bool
  | .close _ .writing, .writing | .close _ .reading, .reading => true
  | _, _ => false

/-- The process may be asleep on this channel. -/
def Call.sleepsOn : Call → PipeChan → Bool
  | .write .woken _, .nwrite | .read .woken _, .nread => true
  | _, _ => false

/-- The process has tested that it has to wait on this channel. -/
def Call.tests : Call → PipeChan → Bool
  | .write .wakeReaders _, .nwrite | .write .sleep _, .nwrite
  | .read .sleep _, .nread => true
  | _, _ => false

/-- The process will wake up this channel before it releases the lock, unless
it takes the early return of `pipewrite`. -/
def Call.owes : Call → PipeChan → Bool
  | .write .loop _, .nread | .write .wakeReaders _, .nread
  | .write .wake _, .nread | .close .wake .writing, .nread => true
  | .read .copy _, .nwrite | .read .wake _, .nwrite
  | .close .wake .reading, .nwrite => true
  | _, _ => false

theorem Call.critical_of_owes {c : Call} {chan : PipeChan}
    (owes : c.owes chan = true) : c.critical = true := by
  unfold Call.owes at owes
  split at owes <;> first | rfl | cases owes

theorem Call.critical_of_tests {c : Call} {chan : PipeChan}
    (tests : c.tests chan = true) : c.critical = true := by
  unfold Call.tests at tests
  split at tests <;> first | rfl | cases tests

theorem Call.uses_reading_of_sleepsOn {c : Call}
    (sleeps : c.sleepsOn .nread = true) : c.uses .reading = true := by
  cases c with
  | read pc call => rfl
  | outside => cases sleeps
  | write pc call => cases pc <;> cases sleeps
  | close pc file => cases pc <;> cases sleeps

def Pipe.isOpen (pipe : Pipe slots) : PipeEnd → Bool
  | .reading => pipe.readopen
  | .writing => pipe.writeopen

/-- Why a process sleeps on a channel. -/
def Pipe.Keeps (pipe : Pipe slots) : PipeChan → Prop
  | .nread => pipe.Empty ∧ pipe.writeopen = true
  | .nwrite => pipe.Full ∧ pipe.readopen = true

instance (pipe : Pipe slots) (chan : PipeChan) : Decidable (pipe.Keeps chan) :=
  match chan with
  | .nread => inferInstanceAs (Decidable (_ ∧ _))
  | .nwrite => inferInstanceAs (Decidable (_ ∧ _))

/-- While the lock is free, no process sleeps on `&p->nread` when the pipe is
not empty or closed for writing, and none on `&p->nwrite` when the pipe is not
full or closed for reading. -/
def NoStuckSleeper (s : System slots) : Prop :=
  s.pipe.lock = none → ∀ p,
    (s.ptable.Asleep p .nread → s.pipe.Empty ∧ s.pipe.writeopen = true) ∧
      (s.ptable.Asleep p .nwrite → s.pipe.Full ∧ s.pipe.readopen = true)

/-- A killed writer takes the early return of `pipewrite` only while no reader
sleeps. -/
def KilledReturnQuiet (s : System slots) : Label slots → Prop
  | .run p => ∀ c, s.call p = .write .loop c → (c.i : Int) < c.n →
      s.pipe.Full → (s.ptable p).killed = true → ∀ q, ¬ s.ptable.Asleep q .nread
  | _ => True

instance (s : System slots) (label : Label slots) :
    Decidable (KilledReturnQuiet s label) :=
  match label with
  | .run p =>
      match call : s.call p with
      | .write .loop c =>
          decidable_of_iff ((c.i : Int) < c.n → s.pipe.Full →
            (s.ptable p).killed = true → ∀ q, ¬ s.ptable.Asleep q .nread)
            ⟨fun quiet c' same => by
              cases call.symm.trans same
              exact quiet, fun quiet => quiet c call⟩
      | .write .acquire _ | .write .wakeReaders _ | .write .sleep _
      | .write .woken _ | .write .reacquire _ | .write .wake _
      | .write .release _ | .outside | .read _ _ | .close _ _ =>
          isTrue fun _ same => by cases call.symm.trans same
  | .write _ _ _ | .read _ _ | .filedup _ _ _ | .fileclose _ _ | .kill _
  | .dispatch _ | .preempt _ | .other _ _ => isTrue trivial

/-- Every sleeper has a reason to sleep, or the holder of the lock will wake it
up. -/
structure WakeOk (s : System slots) : Prop where
  lock : ∀ q, (s.call q).critical = true → s.pipe.lock = some q
  files : ∀ q file, (s.call q).uses file = true → q ∈ s.files file
  closed : ∀ q file, (s.call q).closes file = true → s.files file = []
  shut : ∀ file, s.pipe.isOpen file = false → s.files file = []
  chan : ∀ q chan, (s.ptable q).chan = some chan →
    (s.call q).sleepsOn chan = true
  tested : ∀ q chan, (s.call q).tests chan = true → s.pipe.Keeps chan
  sleepers : ∀ q chan, s.ptable.Asleep q chan → s.pipe.Keeps chan ∨
    ∃ h, s.pipe.lock = some h ∧ (s.call h).owes chan = true

namespace WakeOk

variable {s next : System slots} {p : Fin slots}

theorem congr (ok : WakeOk s) (ptable : next.ptable = s.ptable)
    (pipe : next.pipe = s.pipe) (files : next.files = s.files)
    (call : next.call = s.call) : WakeOk next := by
  obtain ⟨_, _, _, _, _, _, _, _⟩ := next
  cases ptable
  cases pipe
  cases files
  cases call
  exact ⟨ok.lock, ok.files, ok.closed, ok.shut, ok.chan, ok.tested, ok.sleepers⟩

/-- The process moves on inside its call. -/
theorem goto (ok : WakeOk s) {c : Call}
    (lock : c.critical = true → s.pipe.lock = some p)
    (uses : ∀ file, c.uses file = true → p ∈ s.files file)
    (closes : ∀ file, c.closes file = true → s.files file = [])
    (chan : ∀ chan, (s.ptable p).chan = some chan → c.sleepsOn chan = true)
    (tests : ∀ chan, c.tests chan = true → s.pipe.Keeps chan)
    (owes : ∀ q chan, s.ptable.Asleep q chan → s.pipe.lock = some p →
      (s.call p).owes chan = true → c.owes chan = true ∨ s.pipe.Keeps chan) :
    WakeOk (s.goto p c) := by
  have callSelf : (s.goto p c).call p = c := Function.update_self _ _ _
  have callOther {q : Fin slots} (other : q ≠ p) : (s.goto p c).call q = s.call q :=
    Function.update_of_ne other _ _
  refine ⟨fun q => ?_, fun q => ?_, fun q => ?_, ok.shut, fun q => ?_, fun q => ?_,
    fun q channel asleep => ?_⟩
  · by_cases here : q = p
    · subst here
      rw [callSelf]
      exact lock
    · rw [callOther here]
      exact ok.lock q
  · by_cases here : q = p
    · subst here
      rw [callSelf]
      exact uses
    · rw [callOther here]
      exact ok.files q
  · by_cases here : q = p
    · subst here
      rw [callSelf]
      exact closes
    · rw [callOther here]
      exact ok.closed q
  · by_cases here : q = p
    · subst here
      rw [callSelf]
      exact chan
    · rw [callOther here]
      exact ok.chan q
  · by_cases here : q = p
    · subst here
      rw [callSelf]
      exact tests
    · rw [callOther here]
      exact ok.tested q
  · rcases ok.sleepers q channel asleep with keeps | ⟨h, held, owing⟩
    · exact .inl keeps
    · by_cases here : h = p
      · subst here
        rcases owes q channel asleep held owing with owing | keeps
        · exact .inr ⟨h, held, by rwa [callSelf]⟩
        · exact .inl keeps
      · exact .inr ⟨h, held, by rwa [callOther here]⟩

/-- The lock is free, and the process takes it. -/
theorem take (ok : WakeOk s) (free : s.pipe.lock = none) :
    WakeOk (s.setLock (some p)) := by
  have uncritical (q : Fin slots) (critical : (s.call q).critical = true) : False := by
    have held := ok.lock q critical
    rw [free] at held
    cases held
  refine ⟨fun q critical => (uncritical q critical).elim, ok.files, ok.closed,
    ok.shut, ok.chan, ok.tested, fun q chan asleep => ?_⟩
  rcases ok.sleepers q chan asleep with keeps | ⟨h, _, owing⟩
  · exact .inl keeps
  · exact (uncritical h (Call.critical_of_owes owing)).elim

/-- The process releases the lock, having nothing left to do under it. -/
theorem unlock (ok : WakeOk s) (held : s.pipe.lock = some p)
    (done : (s.call p).critical = false) : WakeOk (s.setLock none) := by
  have uncritical (q : Fin slots) (critical : (s.call q).critical = true) : False := by
    have same := ok.lock q critical
    cases held.symm.trans same
    rw [done] at critical
    cases critical
  refine ⟨fun q critical => (uncritical q critical).elim, ok.files, ok.closed,
    ok.shut, ok.chan, ok.tested, fun q chan asleep => ?_⟩
  rcases ok.sleepers q chan asleep with keeps | ⟨h, _, owing⟩
  · exact .inl keeps
  · exact (uncritical h (Call.critical_of_owes owing)).elim

/-- A change of the process table that puts nobody to sleep. -/
theorem table (ok : WakeOk s) {t : ProcTable slots PipeChan}
    (chan : ∀ q chan, (t q).chan = some chan → (s.ptable q).chan = some chan)
    (asleep : ∀ q chan, t.Asleep q chan → s.ptable.Asleep q chan) :
    WakeOk { s with ptable := t } :=
  ⟨ok.lock, ok.files, ok.closed, ok.shut,
    fun q ch same => ok.chan q ch (chan q ch same), ok.tested,
    fun q ch sleeping => ok.sleepers q ch (asleep q ch sleeping)⟩

/-- A process for which there is nothing to do falls asleep. -/
theorem fallAsleep (ok : WakeOk s) {chan : PipeChan}
    (sleeps : (s.call p).sleepsOn chan = true) (keeps : s.pipe.Keeps chan) :
    WakeOk { s with ptable := s.ptable.fallAsleep p chan } := by
  refine ⟨ok.lock, ok.files, ok.closed, ok.shut, fun q ch same => ?_, ok.tested,
    fun q ch asleep => ?_⟩
  · by_cases here : q = p
    · subst here
      simp only [ProcTable.fallAsleep, Function.update_self,
        Option.some.injEq] at same
      exact same ▸ sleeps
    · simp only [ProcTable.fallAsleep, Function.update_of_ne here] at same
      exact ok.chan q ch same
  · rcases ProcTable.asleep_fallAsleep asleep with ⟨_, rfl⟩ | before
    · exact .inl keeps
    · exact ok.sleepers q ch before

/-- The holder of the lock changes the pipe. -/
theorem change (ok : WakeOk s) (held : s.pipe.lock = some p) {pipe : Pipe slots}
    (lock : pipe.lock = some p)
    (shut : ∀ file, pipe.isOpen file = false →
      s.pipe.isOpen file = false ∨ (s.call p).closes file = true)
    (tests : ∀ chan, (s.call p).tests chan = true → pipe.Keeps chan)
    (sleepers : ∀ q chan, s.ptable.Asleep q chan →
      pipe.Keeps chan ∨ (s.call p).owes chan = true) :
    WakeOk { s with pipe := pipe } := by
  refine ⟨fun q critical => ?_, ok.files, ok.closed, fun file closed => ?_, ok.chan,
    fun q chan tested => ?_, fun q chan asleep => ?_⟩
  · exact lock.trans (held.symm.trans (ok.lock q critical))
  · rcases shut file closed with before | closes
    · exact ok.shut file before
    · exact ok.closed p file closes
  · cases held.symm.trans (ok.lock q (Call.critical_of_tests tested))
    exact tests chan tested
  · rcases sleepers q chan asleep with keeps | owing
    · exact .inl keeps
    · exact .inr ⟨p, lock, owing⟩

/-- A process that is in no sleep has no channel. -/
theorem chan_none (ok : WakeOk s)
    (awake : ∀ chan, (s.call p).sleepsOn chan = false) :
    (s.ptable p).chan = none := by
  cases same : (s.ptable p).chan with
  | none => rfl
  | some chan =>
      have sleeps := ok.chan p chan same
      rw [awake chan] at sleeps
      cases sleeps

/-- Whoever sleeps for no reason is owed a wakeup by the process under the
lock. -/
theorem owed_by_holder (ok : WakeOk s) (critical : (s.call p).critical = true)
    {q : Fin slots} {chan : PipeChan} (asleep : s.ptable.Asleep q chan) :
    s.pipe.Keeps chan ∨ (s.call p).owes chan = true := by
  rcases ok.sleepers q chan asleep with keeps | ⟨h, held, owing⟩
  · exact .inl keeps
  · cases held.symm.trans (ok.lock p critical)
    exact .inr owing

/-- The descriptors of one end change while its users keep theirs. -/
theorem setFiles (ok : WakeOk s) {file : PipeEnd} {refs : List (Fin slots)}
    (keeps : ∀ q, (s.call q).uses file = true → q ∈ refs)
    (stays : s.files file = [] → refs = []) : WakeOk (s.setFiles file refs) := by
  have self : (s.setFiles file refs).files file = refs := Function.update_self _ _ _
  have others {other : PipeEnd} (apart : other ≠ file) :
      (s.setFiles file refs).files other = s.files other :=
    Function.update_of_ne apart _ _
  refine ⟨ok.lock, fun q other used => ?_, fun q other closing => ?_,
    fun other closed => ?_, ok.chan, ok.tested, ok.sleepers⟩
  · by_cases here : other = file
    · subst here
      rw [self]
      exact keeps q used
    · rw [others here]
      exact ok.files q other used
  · by_cases here : other = file
    · subst here
      rw [self]
      exact stays (ok.closed q other closing)
    · rw [others here]
      exact ok.closed q other closing
  · by_cases here : other = file
    · subst here
      rw [self]
      exact stays (ok.shut other closed)
    · rw [others here]
      exact ok.shut other closed

/-- The process takes the lock and goes on. -/
theorem acquire (ok : WakeOk s) {c : Call}
    (acquired : s.acquire p c = some next)
    (uses : ∀ file, c.uses file = true → (s.call p).uses file = true)
    (closes : ∀ file, c.closes file = true → (s.call p).closes file = true)
    (awake : ∀ chan, (s.call p).sleepsOn chan = false)
    (tests : ∀ chan, c.tests chan = false) : WakeOk next := by
  unfold System.acquire at acquired
  split at acquired
  · rename_i free
    cases acquired
    refine (ok.take free).goto (fun _ => rfl) (fun file used => ?_)
      (fun file closing => ?_) (fun chan same => ?_) (fun chan tested => ?_) ?_
    · exact ok.files p file (uses file used)
    · exact ok.closed p file (closes file closing)
    · change (s.ptable p).chan = some chan at same
      rw [ok.chan_none awake] at same
      cases same
    · rw [tests chan] at tested
      cases tested
    · intro q chan asleep _ owing
      rcases ok.sleepers q chan asleep with keeps | ⟨h, held, _⟩
      · exact .inr keeps
      · rw [free] at held
        cases held
  · cases acquired

/-- The process goes on under the lock, in the same call. -/
theorem move (ok : WakeOk s) {c : Call} (critical : (s.call p).critical = true)
    (uses : ∀ file, c.uses file = true → (s.call p).uses file = true)
    (closes : ∀ file, c.closes file = true → (s.call p).closes file = true)
    (awake : ∀ chan, (s.call p).sleepsOn chan = false)
    (tests : ∀ chan, c.tests chan = true → s.pipe.Keeps chan)
    (owes : ∀ q chan, s.ptable.Asleep q chan → (s.call p).owes chan = true →
      c.owes chan = true ∨ s.pipe.Keeps chan) : WakeOk (s.goto p c) := by
  refine ok.goto (fun _ => ok.lock p critical) (fun file used => ?_)
    (fun file closing => ?_) (fun chan same => ?_) tests
    fun q chan asleep _ => owes q chan asleep
  · exact ok.files p file (uses file used)
  · exact ok.closed p file (closes file closing)
  · rw [ok.chan_none awake] at same
    cases same

/-- The process wakes up a channel and goes on under the lock. -/
theorem wakeup (ok : WakeOk s) {c : Call} {chan : PipeChan}
    (critical : (s.call p).critical = true)
    (uses : ∀ file, c.uses file = true → (s.call p).uses file = true)
    (closes : ∀ file, c.closes file = true → (s.call p).closes file = true)
    (awake : ∀ chan, (s.call p).sleepsOn chan = false)
    (tests : ∀ chan, c.tests chan = true → s.pipe.Keeps chan)
    (owes : ∀ other, (s.call p).owes other = true →
      c.owes other = true ∨ other = chan) :
    WakeOk ((s.wakeup chan).goto p c) := by
  have woken : WakeOk (s.wakeup chan) := by
    refine ok.table (fun q ch same => ?_) fun q ch =>
      ProcTable.asleep_of_asleep_wakeup1
    by_cases asleep : s.ptable.Asleep q chan
    · rwa [ProcTable.wakeup1_of_asleep asleep] at same
    · rwa [ProcTable.wakeup1_of_not_asleep asleep] at same
  refine woken.move critical uses closes awake tests fun q ch asleep owing => ?_
  rcases owes ch owing with owing | rfl
  · exact .inl owing
  · exact absurd asleep (ProcTable.not_asleep_wakeup1 _ _ _)

/-- The process leaves its call. -/
theorem leave (ok : WakeOk s) (critical : (s.call p).critical = true)
    (awake : ∀ chan, (s.call p).sleepsOn chan = false) (value : Int)
    (owes : ∀ q chan, s.ptable.Asleep q chan → (s.call p).owes chan = true →
      s.pipe.Keeps chan) : WakeOk (s.leave p value) := by
  have moved : WakeOk (s.goto p .outside) := by
    refine ok.move critical nofun nofun awake nofun fun q chan asleep owing => ?_
    exact .inr (owes q chan asleep owing)
  have outside : ((s.goto p .outside).call p).critical = false := by
    simp [System.goto, Call.critical]
  exact (moved.unlock (ok.lock p critical) outside).congr rfl rfl rfl rfl

/-- The process releases the lock and falls asleep. -/
theorem sleep (ok : WakeOk s) {c : Call} {chan : PipeChan}
    (critical : (s.call p).critical = true)
    (uses : ∀ file, c.uses file = true → (s.call p).uses file = true)
    (closes : ∀ file, c.closes file = true → (s.call p).closes file = true)
    (awake : ∀ chan, (s.call p).sleepsOn chan = false)
    (tests : ∀ chan, c.tests chan = false)
    (owes : ∀ chan, (s.call p).owes chan = false)
    (uncritical : c.critical = false) (sleeps : c.sleepsOn chan = true)
    (tested : (s.call p).tests chan = true) :
    WakeOk (s.sleep p chan c) := by
  have moved : WakeOk (s.goto p c) := by
    refine ok.move critical uses closes awake (fun ch tested => ?_)
      fun q ch _ owing => ?_
    · rw [tests ch] at tested
      cases tested
    · rw [owes ch] at owing
      cases owing
  have self : (s.goto p c).call p = c := Function.update_self _ _ _
  have unlocked : WakeOk ((s.goto p c).setLock none) :=
    moved.unlock (ok.lock p critical) (by rw [self, uncritical])
  have keeps : s.pipe.Keeps chan := ok.tested p chan tested
  have sleeping : (((s.goto p c).setLock none).call p).sleepsOn chan = true := by
    change ((s.goto p c).call p).sleepsOn chan = true
    rw [self, sleeps]
  exact (unlocked.fallAsleep sleeping keeps).congr rfl rfl rfl rfl

/-- The process is scheduled again after a sleep. -/
theorem tidyUp (ok : WakeOk s) {c : Call}
    (uses : ∀ file, c.uses file = true → (s.call p).uses file = true)
    (closes : ∀ file, c.closes file = true → (s.call p).closes file = true)
    (tests : ∀ chan, c.tests chan = false) (uncritical : c.critical = false)
    (owes : ∀ chan, (s.call p).owes chan = false) :
    WakeOk ({ s with ptable := s.ptable.tidyUp p }.goto p c) := by
  have tidied : WakeOk { s with ptable := s.ptable.tidyUp p } := by
    refine ok.table (fun q chan same => ?_) fun q chan asleep => ?_
    · by_cases here : q = p
      · subst here
        simp [ProcTable.tidyUp] at same
      · simpa [ProcTable.tidyUp, here] using same
    · by_cases here : q = p
      · subst here
        simp [ProcTable.Asleep, ProcTable.tidyUp] at asleep
      · simpa [ProcTable.Asleep, ProcTable.tidyUp, here] using asleep
  refine tidied.goto (fun critical => ?_) (fun file used => ?_)
    (fun file closing => ?_) (fun chan same => ?_) (fun chan tested => ?_)
    fun q chan _ _ owing => ?_
  · rw [uncritical] at critical
    cases critical
  · exact ok.files p file (uses file used)
  · exact ok.closed p file (closes file closing)
  · simp [ProcTable.tidyUp] at same
  · rw [tests chan] at tested
    cases tested
  · change (s.call p).owes chan = true at owing
    rw [owes chan] at owing
    cases owing

/-- The process changes the pipe and goes on under the lock. -/
theorem moveAndChange (ok : WakeOk s) {c : Call} {pipe : Pipe slots}
    (critical : (s.call p).critical = true)
    (uses : ∀ file, c.uses file = true → (s.call p).uses file = true)
    (closes : ∀ file, c.closes file = true → (s.call p).closes file = true)
    (awake : ∀ chan, (s.call p).sleepsOn chan = false)
    (tests : ∀ chan, c.tests chan = false)
    (owes : ∀ chan, (s.call p).owes chan = true → c.owes chan = true)
    (lock : pipe.lock = s.pipe.lock)
    (shut : ∀ file, pipe.isOpen file = false →
      s.pipe.isOpen file = false ∨ c.closes file = true)
    (sleepers : ∀ q chan, s.ptable.Asleep q chan →
      pipe.Keeps chan ∨ c.owes chan = true) :
    WakeOk { s.goto p c with pipe := pipe } := by
  have held := ok.lock p critical
  have self : (s.goto p c).call p = c := Function.update_self _ _ _
  have moved : WakeOk (s.goto p c) := by
    refine ok.move critical uses closes awake (fun chan tested => ?_)
      fun q chan _ owing => .inl (owes chan owing)
    rw [tests chan] at tested
    cases tested
  refine moved.change held (lock.trans held) (fun file closed => ?_)
    (fun chan tested => ?_) fun q chan asleep => ?_
  · rw [self]
    exact shut file closed
  · rw [self, tests chan] at tested
    cases tested
  · rw [self]
    exact sleepers q chan asleep

theorem pipewrite (ok : WakeOk s) {pc : WritePc} {c : WriteCall}
    (call : s.call p = .write pc c)
    (quiet : pc = .loop → (c.i : Int) < c.n → s.pipe.Full →
      (s.ptable p).killed = true → ∀ q, ¬ s.ptable.Asleep q .nread)
    (stepped : s.pipewrite p c pc = some next) : WakeOk next := by
  have uses {pc' : WritePc} {c' : WriteCall} (file : PipeEnd)
      (used : (Call.write pc' c').uses file = true) :
      (s.call p).uses file = true := by
    rw [call]
    cases file <;> first | rfl | cases used
  have closes {pc' : WritePc} {c' : WriteCall} (file : PipeEnd)
      (closing : (Call.write pc' c').closes file = true) : (s.call p).closes file = true := by
    cases closing
  have awake (notWoken : pc ≠ .woken) (chan : PipeChan) :
      (s.call p).sleepsOn chan = false := by
    rw [call]
    cases chan <;> cases pc <;> first | rfl | exact absurd rfl notWoken
  cases pc with
  | acquire =>
      exact ok.acquire stepped uses closes (awake (by rintro ⟨⟩)) fun chan => by
        cases chan <;> rfl
  | reacquire =>
      exact ok.acquire stepped uses closes (awake (by rintro ⟨⟩)) fun chan => by
        cases chan <;> rfl
  | loop =>
      have critical : (s.call p).critical = true := by rw [call]; rfl
      simp only [System.pipewrite] at stepped
      split at stepped
      · rename_i more
        split at stepped
        · rename_i full
          split at stepped
          · rename_i gone
            cases stepped
            refine ok.leave critical (awake (by rintro ⟨⟩)) _ fun q chan asleep owing => ?_
            cases chan with
            | nwrite =>
                rw [call] at owing
                cases owing
            | nread =>
                exfalso
                rcases gone with closed | killed
                · have reader := ok.files q .reading
                    (Call.uses_reading_of_sleepsOn (ok.chan q .nread asleep.2))
                  rw [ok.shut .reading closed] at reader
                  cases reader
                · exact quiet rfl more full killed q asleep
          · rename_i notGone
            cases stepped
            refine ok.move critical uses closes (awake (by rintro ⟨⟩)) (fun chan tested => ?_)
              fun q chan _ owing => ?_
            · cases chan with
              | nread => cases tested
              | nwrite =>
                  refine ⟨full, ?_⟩
                  by_contra closed
                  exact notGone (.inl (Bool.not_eq_true _ ▸ closed))
            · rw [call] at owing
              cases chan <;> first | exact .inl rfl | cases owing
        · rename_i room
          cases stepped
          have changed := ok.moveAndChange critical
            (c := .write .loop { c with i := c.i + 1 }) uses closes (awake (by rintro ⟨⟩))
            (fun chan => by cases chan <;> rfl) (fun chan owing => ?_)
            (show (s.pipe.put (c.addr c.i)).lock = s.pipe.lock from rfl)
            (fun file closed => ?_) fun q chan asleep => ?_
          · exact changed.congr rfl rfl rfl rfl
          · rw [call] at owing
            cases chan <;> first | rfl | cases owing
          · cases file <;> exact .inl closed
          · cases chan with
            | nread => exact .inr rfl
            | nwrite =>
                exfalso
                rcases ok.owed_by_holder critical asleep with keeps | owing
                · exact room keeps.1
                · rw [call] at owing
                  cases owing
      · cases stepped
        refine ok.move critical uses closes (awake (by rintro ⟨⟩)) (by rintro chan ⟨⟩)
          fun q chan _ owing => ?_
        rw [call] at owing
        cases chan <;> first | exact .inl rfl | cases owing
  | wakeReaders =>
      cases stepped
      refine ok.wakeup (by rw [call]; rfl) uses closes (awake (by rintro ⟨⟩))
        (fun chan tested => ok.tested p chan ?_) fun chan owing => ?_
      · rw [call]
        cases chan <;> first | rfl | cases tested
      · rw [call] at owing
        cases chan <;> first | exact .inr rfl | cases owing
  | sleep =>
      cases stepped
      refine ok.sleep (by rw [call]; rfl) uses closes (awake (by rintro ⟨⟩))
        (fun chan => by cases chan <;> rfl) (fun chan => ?_) rfl rfl
        (by rw [call]; rfl)
      rw [call]
      cases chan <;> rfl
  | woken =>
      cases stepped
      refine ok.tidyUp uses closes (fun chan => by cases chan <;> rfl) rfl
        fun chan => ?_
      rw [call]
      cases chan <;> rfl
  | wake =>
      cases stepped
      refine ok.wakeup (by rw [call]; rfl) uses closes (awake (by rintro ⟨⟩))
        (by rintro chan ⟨⟩) fun chan owing => ?_
      rw [call] at owing
      cases chan <;> first | exact .inr rfl | cases owing
  | release =>
      cases stepped
      refine ok.leave (by rw [call]; rfl) (awake (by rintro ⟨⟩)) _ fun q chan _ owing => ?_
      rw [call] at owing
      cases chan <;> cases owing

theorem piperead (ok : WakeOk s) {pc : ReadPc} {c : ReadCall}
    (call : s.call p = .read pc c)
    (stepped : s.piperead p c pc = some next) : WakeOk next := by
  have uses {pc' : ReadPc} {c' : ReadCall} (file : PipeEnd)
      (used : (Call.read pc' c').uses file = true) :
      (s.call p).uses file = true := by
    rw [call]
    cases file <;> first | rfl | cases used
  have closes {pc' : ReadPc} {c' : ReadCall} (file : PipeEnd)
      (closing : (Call.read pc' c').closes file = true) : (s.call p).closes file = true := by
    cases closing
  have awake (notWoken : pc ≠ .woken) (chan : PipeChan) :
      (s.call p).sleepsOn chan = false := by
    rw [call]
    cases chan <;> cases pc <;> first | rfl | exact absurd rfl notWoken
  cases pc with
  | acquire =>
      exact ok.acquire stepped uses closes (awake (by rintro ⟨⟩)) fun chan => by
        cases chan <;> rfl
  | reacquire =>
      exact ok.acquire stepped uses closes (awake (by rintro ⟨⟩)) fun chan => by
        cases chan <;> rfl
  | empty =>
      have critical : (s.call p).critical = true := by rw [call]; rfl
      have owesNobody (chan : PipeChan) : (s.call p).owes chan = false := by
        rw [call]
        cases chan <;> rfl
      simp only [System.piperead] at stepped
      split at stepped
      · rename_i empty
        split at stepped <;> cases stepped
        · refine ok.leave critical (awake (by rintro ⟨⟩)) _ fun q chan _ owing => ?_
          rw [owesNobody] at owing
          cases owing
        · refine ok.move critical uses closes (awake (by rintro ⟨⟩)) (fun chan tested => ?_)
            fun q chan _ owing => ?_
          · cases chan with
            | nread => exact empty
            | nwrite => cases tested
          · rw [owesNobody] at owing
            cases owing
      · cases stepped
        refine ok.move critical uses closes (awake (by rintro ⟨⟩)) (by rintro chan ⟨⟩)
          fun q chan _ owing => ?_
        rw [owesNobody] at owing
        cases owing
  | copy =>
      have critical : (s.call p).critical = true := by rw [call]; rfl
      have owesSame {c' : ReadCall} (chan : PipeChan)
          (owing : (s.call p).owes chan = true) :
          (Call.read .copy c').owes chan = true := by
        rw [call] at owing
        cases chan <;> first | rfl | cases owing
      simp only [System.piperead] at stepped
      split at stepped
      · rename_i test
        cases stepped
        have changed := ok.moveAndChange critical
          (c := .read .copy { c with got := c.got ++ [s.pipe.front] }) uses closes
          (awake (by rintro ⟨⟩)) (fun chan => by cases chan <;> rfl) owesSame
          (show s.pipe.advance.lock = s.pipe.lock from rfl)
          (fun file closed => ?_) fun q chan asleep => ?_
        · exact changed.congr rfl rfl rfl rfl
        · cases file <;> exact .inl closed
        · cases chan with
          | nwrite => exact .inr rfl
          | nread =>
              exfalso
              rcases ok.owed_by_holder critical asleep with keeps | owing
              · exact test.2 keeps.1
              · rw [call] at owing
                cases owing
      · cases stepped
        refine ok.move critical uses closes (awake (by rintro ⟨⟩)) (by rintro chan ⟨⟩)
          fun q chan _ owing => ?_
        rw [call] at owing
        cases chan <;> first | exact .inl rfl | cases owing
  | sleep =>
      cases stepped
      refine ok.sleep (by rw [call]; rfl) uses closes (awake (by rintro ⟨⟩))
        (fun chan => by cases chan <;> rfl) (fun chan => ?_) rfl rfl
        (by rw [call]; rfl)
      rw [call]
      cases chan <;> rfl
  | woken =>
      cases stepped
      refine ok.tidyUp uses closes (fun chan => by cases chan <;> rfl) rfl
        fun chan => ?_
      rw [call]
      cases chan <;> rfl
  | wake =>
      cases stepped
      refine ok.wakeup (by rw [call]; rfl) uses closes (awake (by rintro ⟨⟩))
        (by rintro chan ⟨⟩) fun chan owing => ?_
      rw [call] at owing
      cases chan <;> first | exact .inr rfl | cases owing
  | release =>
      cases stepped
      refine ok.leave (by rw [call]; rfl) (awake (by rintro ⟨⟩)) _ fun q chan _ owing => ?_
      rw [call] at owing
      cases chan <;> cases owing

theorem pipeclose (ok : WakeOk s) {pc : ClosePc} {file : PipeEnd}
    (call : s.call p = .close pc file)
    (stepped : s.pipeclose p file pc = some next) : WakeOk next := by
  have closes {pc' : ClosePc} (other : PipeEnd)
      (closing : (Call.close pc' file).closes other = true) :
      (s.call p).closes other = true := by
    rw [call]
    cases file <;> cases other <;> first | rfl | cases closing
  have awake (chan : PipeChan) : (s.call p).sleepsOn chan = false := by
    rw [call]
    cases chan <;> rfl
  cases pc with
  | acquire => exact ok.acquire stepped nofun closes awake fun chan => by cases chan <;> rfl
  | clear =>
      cases stepped
      have critical : (s.call p).critical = true := by rw [call]; rfl
      refine ok.moveAndChange critical nofun closes awake
        (fun chan => by cases chan <;> rfl) (fun chan owing => ?_) ?_
        (fun other closed => ?_) fun q chan asleep => ?_
      · rw [call] at owing
        cases chan <;> cases owing
      · cases file <;> rfl
      · cases file <;> cases other <;> first
          | exact .inr rfl
          | exact .inl closed
      · have keeps : s.pipe.Keeps chan := by
          rcases ok.owed_by_holder critical asleep with keeps | owing
          · exact keeps
          · rw [call] at owing
            cases chan <;> cases owing
        cases file <;> cases chan <;> first
          | exact .inr rfl
          | exact .inl keeps
  | wake =>
      cases stepped
      refine ok.wakeup (by rw [call]; rfl) nofun closes awake nofun
        fun chan owing => .inr ?_
      rw [call] at owing
      cases file <;> cases chan <;> first | rfl | cases owing
  | release =>
      have left : WakeOk (s.leave p 0) := by
        refine ok.leave (by rw [call]; rfl) awake _ fun q chan _ owing => ?_
        rw [call] at owing
        cases file <;> cases chan <;> cases owing
      simp only [System.pipeclose] at stepped
      split at stepped <;> cases stepped
      · exact left.congr rfl rfl rfl rfl
      · exact left

end WakeOk

theorem wakeOk_of_start {s : System slots} (start : s.Start) : WakeOk s := by
  have outside := start.call
  refine ⟨fun q critical => ?_, fun q file used => ?_, fun q file closing => ?_,
    fun file closed => ?_, fun q chan same => ?_, fun q chan tested => ?_,
    fun q chan asleep => ?_⟩
  · rw [outside q] at critical
    cases critical
  · rw [outside q] at used
    cases used
  · rw [outside q] at closing
    cases closing
  · cases file with
    | reading => cases start.readopen.symm.trans closed
    | writing => cases start.writeopen.symm.trans closed
  · rw [start.chan q] at same
    cases same
  · rw [outside q] at tested
    cases tested
  · have same := asleep.2
    rw [start.chan q] at same
    cases same

theorem Call.eq_outside {c : Call} (outside : c.isOutside = true) :
    c = .outside := by
  cases c with
  | outside => rfl
  | write pc call => cases outside
  | read pc call => cases outside
  | close pc file => cases outside

/-- One step keeps every sleeper accounted for, unless a killed writer leaves
readers asleep. -/
theorem step_wakeOk {s next : System slots} {label : Label slots}
    (ok : WakeOk s) (quiet : KilledReturnQuiet s label)
    (stepped : s.step label = some next) : WakeOk next := by
  have enter {p : Fin slots} {c : Call} {t : System slots} (ok : WakeOk t)
      (outside : t.call p = .outside) (uncritical : c.critical = false)
      (uses : ∀ file, c.uses file = true → p ∈ t.files file)
      (closes : ∀ file, c.closes file = true → t.files file = [])
      (tests : ∀ chan, c.tests chan = false) : WakeOk (t.goto p c) := by
    refine ok.goto (fun critical => ?_) uses closes (fun chan same => ?_)
      (fun chan tested => ?_) fun q chan _ _ owing => ?_
    · rw [uncritical] at critical
      cases critical
    · rw [ok.chan_none fun chan => by rw [outside]; rfl] at same
      cases same
    · rw [tests chan] at tested
      cases tested
    · rw [outside] at owing
      cases owing
  cases label with
  | write p addr n =>
      simp only [System.step] at stepped
      split at stepped <;> cases stepped
      rename_i allowed
      refine enter ok (Call.eq_outside allowed.1.2) rfl (fun file used => ?_)
        (by rintro file ⟨⟩) fun chan => by cases chan <;> rfl
      cases file with
      | writing => exact allowed.2
      | reading => cases used
  | read p n =>
      simp only [System.step] at stepped
      split at stepped <;> cases stepped
      rename_i allowed
      refine enter ok (Call.eq_outside allowed.1.2) rfl (fun file used => ?_)
        (by rintro file ⟨⟩) fun chan => by cases chan <;> rfl
      cases file with
      | reading => exact allowed.2
      | writing => cases used
  | filedup p q file =>
      simp only [System.step] at stepped
      split at stepped <;> cases stepped
      rename_i allowed
      refine ok.setFiles (fun r used => ?_) fun none => ?_
      · exact List.mem_cons_of_mem q (ok.files r file used)
      · have member := allowed.2.1
        rw [none] at member
        cases member
  | fileclose p file =>
      simp only [System.step] at stepped
      split at stepped
      · rename_i allowed
        have outside := Call.eq_outside allowed.1.2
        have erased : WakeOk (s.setFiles file ((s.files file).erase p)) := by
          refine ok.setFiles (fun q used => ?_) fun none => ?_
          · have other : q ≠ p := by
              rintro rfl
              rw [outside] at used
              cases used
            exact (List.mem_erase_of_ne other).mpr (ok.files q file used)
          · rw [none]
            rfl
        split at stepped <;> cases stepped
        · rename_i none
          refine enter erased outside rfl (by rintro other ⟨⟩) (fun other closing => ?_)
            fun chan => by cases chan <;> rfl
          have same : other = file := by
            cases file <;> cases other <;> first | rfl | cases closing
          subst same
          exact (Function.update_self _ _ _).trans none
        · exact erased
      · cases stepped
  | kill pid =>
      cases stepped
      refine ok.table (fun q chan same => ?_) fun q chan =>
        ProcTable.asleep_of_asleep_kill
      rwa [ProcTable.chan_kill] at same
  | dispatch p =>
      simp only [System.step] at stepped
      split at stepped <;> cases stepped
      refine ok.table (fun q chan same => ?_) fun q chan =>
        ProcTable.asleep_of_asleep_setState (by simp)
      rwa [ProcTable.chan_setState] at same
  | preempt p =>
      simp only [System.step] at stepped
      split at stepped <;> cases stepped
      refine ok.table (fun q chan same => ?_) fun q chan =>
        ProcTable.asleep_of_asleep_setState (by simp)
      rwa [ProcTable.chan_setState] at same
  | other p proc =>
      simp only [System.step] at stepped
      split at stepped <;> cases stepped
      rename_i allowed
      refine ok.table (fun q chan same => ?_) fun q chan asleep => ?_
      · by_cases here : q = p
        · subst here
          simp [allowed.2] at same
        · simpa [here] using same
      · by_cases here : q = p
        · subst here
          simp [ProcTable.Asleep, allowed.2] at asleep
        · simpa [ProcTable.Asleep, here] using asleep
  | run p =>
      simp only [System.step] at stepped
      split at stepped
      · unfold System.runCall at stepped
        split at stepped
        · cases stepped
        · rename_i pc c call
          refine ok.pipewrite call ?_ stepped
          rintro rfl more full killed
          exact quiet c call more full killed
        · rename_i pc c call
          exact ok.piperead call stepped
        · rename_i pc file call
          exact ok.pipeclose call stepped
      · cases stepped

theorem noStuckSleeper_of_wakeOk {s : System slots} (ok : WakeOk s) :
    NoStuckSleeper s := by
  intro free p
  have keeps (chan : PipeChan) (asleep : s.ptable.Asleep p chan) :
      s.pipe.Keeps chan := by
    rcases ok.sleepers p chan asleep with keeps | ⟨h, held, _⟩
    · exact keeps
    · rw [free] at held
      cases held
  exact ⟨keeps .nread, keeps .nwrite⟩

theorem Pipe.not_empty_of_full {pipe : Pipe slots} (full : pipe.Full) :
    ¬ pipe.Empty := by
  intro empty
  have size := pipe.full_iff.mp full
  rw [RingBuffer.count_eq_zero_iff.mpr empty] at size
  cases size

/-- The early return of a killed writer leaves the readers asleep. -/
theorem stuck_of_killed_return {s next : System slots} {p q : Fin slots}
    {c : WriteCall} (call : s.call p = .write .loop c) (more : (c.i : Int) < c.n)
    (full : s.pipe.Full) (killed : (s.ptable p).killed = true)
    (asleep : s.ptable.Asleep q .nread)
    (stepped : s.step (.run p) = some next) : ¬ NoStuckSleeper next := by
  simp only [System.step] at stepped
  split at stepped
  · simp only [System.runCall, call, System.pipewrite, more, full, killed, or_true,
      if_true] at stepped
    cases stepped
    intro fine
    exact Pipe.not_empty_of_full full ((fine rfl q).1 asleep).1
  · cases stepped

/-- In a run over a pipe, no process is ever stuck asleep exactly if no killed
writer takes the early return of `pipewrite` while a reader sleeps. -/
theorem noStuckSleeper_iff {s last : System slots} {labels : List (Label slots)}
    (start : s.Start) (ran : run System.step s labels = some last) :
    (∀ first middle, first <+: labels → run System.step s first = some middle →
        NoStuckSleeper middle) ↔
      RunMeets System.step KilledReturnQuiet s labels := by
  constructor
  · intro fine
    rw [runMeets_iff ran]
    intro first label middle next before reached stepped
    cases label with
    | run p =>
        intro c call more full killed q asleep
        refine stuck_of_killed_return call more full killed asleep stepped ?_
        refine fine (first ++ [.run p]) next before ?_
        rw [run_append_eq_some]
        exact ⟨middle, reached, run_cons_eq_some.mpr ⟨next, stepped, rfl⟩⟩
    | _ => trivial
  · rintro meets first middle ⟨rest, rfl⟩ reached
    have ok : WakeOk middle := invariant_of_runMeets step_wakeOk
      (wakeOk_of_start start) ((runMeets_append reached).mp meets).1 reached
    exact noStuckSleeper_of_wakeOk ok

theorem readBeforeWrite_noStuckSleeper :
    (run System.step .twoProcesses readBeforeWrite).isSome ∧
      ∀ first middle, first <+: readBeforeWrite →
        run System.step .twoProcesses first = some middle →
        NoStuckSleeper middle := by
  have ran : (run System.step .twoProcesses readBeforeWrite).isSome := by
    decide +kernel
  exact ⟨ran, (noStuckSleeper_iff System.twoProcesses_start
    (Option.some_get ran).symm).mpr (by decide +kernel)⟩

local instance killedWriter_neZero : NeZero 2 := ⟨by decide⟩

/-- A reader sleeps; a writer of 513 bytes is killed, stores 512 of them and
returns. -/
def killedWriter : List (Label 2) :=
  [Label.filedup 0 1 .reading, .read 1 1, .run 1, .run 1, .run 1,
    .write 0 (fun _ => 0) 513, .kill 1] ++ List.replicate 514 (Label.run 0)

/-- The reader sleeps on although the pipe is full. -/
theorem reader_stuck_after_killed_writer :
    ∃ last, run System.step .twoProcesses killedWriter = some last ∧
      ¬ NoStuckSleeper last := by
  have reached : ((run System.step .twoProcesses killedWriter).map fun s =>
      (s.pipe.lock, decide (s.ptable.Asleep 1 .nread), decide s.pipe.Empty)) =
      some (none, true, false) := by
    decide +kernel
  obtain ⟨last, ran, fields⟩ := Option.map_eq_some_iff.mp reached
  simp only [Prod.mk.injEq, decide_eq_true_eq, decide_eq_false_iff_not] at fields
  obtain ⟨free, asleep, nonempty⟩ := fields
  exact ⟨last, ran, fun fine => nonempty ((fine free 1).1 asleep).1⟩

end Xv6.Pipes
