import Mathlib.Algebra.GroupWithZero.Nat
import Xv6.UthreadScan

/-!
# The main thread of `uthread1`

`main` initializes the library, creates threads and calls `thread_schedule`,
expecting never to be resumed.  But that call leaves entry 0 of the table
`RUNNABLE`, and the scan begins at entry 0: the next activation of
`thread_schedule`, whether a tick or `thread_exit` starts it, resumes `main`.
-/

namespace Xv6.Uthread

open LabelledRuns

/-- Where `main` stands: before its call of `thread_schedule`, inside it,
switched away from, or in control again. -/
inductive MainPhase where
  | creating
  | calling
  | parked
  | resumed
  deriving DecidableEq, Repr

/-- A process that executes `main`.  `toCreate` counts the `thread_create`
calls that it has yet to make, and `alive` holds of the created threads that
have not executed the first statement of `thread_exit`. -/
structure MainRun where
  process : Process
  toCreate : Nat
  phase : MainPhase
  alive : ThreadIndex → Bool

namespace MainRun

/-- `main` is about to call `thread_init`, and will create `count` threads. -/
def begin (count : Nat) : MainRun where
  process := start
  toCreate := count
  phase := .creating
  alive := fun _ => false

local instance follows_neZero : NeZero 4 := ⟨by decide⟩

/-- The calls that the code makes: `main` creates its threads and then calls
the scheduler once; a thread function calls `thread_exit` only. -/
def Follows (s : MainRun) : Label → Prop
  | .create => s.process.currentThread = some 0 ∧ s.phase = .creating ∧
      0 < s.toCreate
  | .schedule => s.process.currentThread = some 0 ∧ s.phase = .creating ∧
      s.toCreate = 0
  | .exit => s.process.currentThread ≠ some 0
  | .tick | .statement => True

instance (s : MainRun) (label : Label) : Decidable (s.Follows label) :=
  match label with
  | .create => inferInstanceAs (Decidable (_ ∧ _ ∧ _))
  | .schedule => inferInstanceAs (Decidable (_ ∧ _ ∧ _))
  | .exit => inferInstanceAs (Decidable (¬ _))
  | .tick | .statement => isTrue trivial

/-- Where `main` stands after a step to `next`. -/
def phaseAfter (next : Process) (label : Label) : MainPhase → MainPhase
  | .creating => if label = .schedule then .calling else .creating
  | .calling =>
      if next.currentThread ≠ some 0 then .parked
      else if InSchedule next then .calling
      else .resumed
  | .parked => if next.currentThread = some 0 then .resumed else .parked
  | .resumed => .resumed

/-- The created threads that have not exited, after the next statement. -/
def aliveAfter (s : MainRun) (label : Label) (u : ThreadIndex) : Bool :=
  match label, s.process.stack with
  | .statement, .threadCreate .setState t :: _ =>
      if u.val = t then true else s.alive u
  | .statement, .threadExit .setFree :: _ =>
      if some u = s.process.currentThread then false else s.alive u
  | _, _ => s.alive u

/-- One step of the process. -/
def step (s : MainRun) (label : Label) : Option MainRun :=
  if s.Follows label then
    match Uthread.step s.process label with
    | some next => some
        { process := next
          toCreate := if label = .create then s.toCreate - 1 else s.toCreate
          phase := phaseAfter next label s.phase
          alive := s.aliveAfter label }
    | none => none
  else none

/-- The process has ended through "no runnable threads". -/
def OutOfThreads (s : MainRun) : Prop :=
  s.process.exited = true ∧
    ∃ l rest, s.process.stack = .threadSchedule .noSwitch l :: rest

/-- `main` has not been resumed after its call of the scheduler, and the
process has run out of threads only if every created thread has called
`thread_exit`. -/
structure MainParked (s : MainRun) : Prop where
  parked : s.phase ≠ .resumed
  ended : s.OutOfThreads → ∀ t, s.alive t = false

/-- The step starts an activation of `thread_schedule` other than the one that
`main` calls. -/
def Reschedules (s : MainRun) : Label → Prop
  | .tick => True
  | .statement => (s.process.stack.head?.any fun frame =>
      frame = .threadExit .callSchedule) = true
  | _ => False

instance (s : MainRun) (label : Label) : Decidable (s.Reschedules label) :=
  match label with
  | .tick => isTrue trivial
  | .statement => inferInstanceAs (Decidable (_ = _))
  | .create | .schedule | .exit => isFalse id

/-- `main` calls the scheduler only while another thread is runnable, and from
then on nothing else does. -/
def Undisturbed (s : MainRun) (label : Label) : Prop :=
  (label = .schedule → ∃ t, t ≠ 0 ∧ s.process.stateOf t = .runnable) ∧
    (s.phase ≠ .creating → ¬ s.Reschedules label)

instance (s : MainRun) (label : Label) : Decidable (s.Undisturbed label) :=
  inferInstanceAs (Decidable
    ((label = .schedule → ∃ t, t ≠ 0 ∧ s.process.stateOf t = .runnable) ∧ _))

/-- Ticks are taken only while control is outside `thread_schedule`. -/
def TicksOutside (s : MainRun) (label : Label) : Prop :=
  TickOutside s.process label

instance (s : MainRun) (label : Label) : Decidable (s.TicksOutside label) :=
  inferInstanceAs (Decidable (TickOutside _ _))

theorem step_eq_some {s next : MainRun} {label : Label}
    (stepped : s.step label = some next) :
    s.Follows label ∧ Uthread.step s.process label = some next.process ∧
      next.phase = phaseAfter next.process label s.phase ∧
      next.alive = s.aliveAfter label := by
  unfold step at stepped
  split at stepped
  · rename_i follows
    split at stepped
    · rename_i process stepped'
      cases stepped
      exact ⟨follows, stepped', rfl, rfl⟩
    · cases stepped
  · cases stepped

/-! ## Threads that have exited -/

/-- The invariant of runs whose ticks come outside the scheduler. -/
structure Ok (s : MainRun) : Prop where
  scanned : s.process.exited = false → ScannedOk s.process
  inUse : ∀ t, s.alive t = true → s.process.stateOf t ≠ .free
  ended : s.OutOfThreads → ∀ t, s.alive t = false

theorem begin_ok (count : Nat) : (begin count).Ok where
  scanned _ := start_scannedOk
  inUse t alive := by cases alive
  ended _ _ := rfl

/-- What `thread_init` clears is free already. -/
theorem clear_free {p : Process} {i : Nat} {rest : List Frame}
    (table : TableOk p) (top : p.stack = .threadInit (.clear i) :: rest)
    (t : ThreadIndex) (here : t.val = i) : p.stateOf t = .free := by
  have live := table.live
  rw [top] at live
  cases live with
  | @base _ frame shape base returned owner =>
      rcases baseFrame_eq_some.mp shape with ⟨same, _⟩ | ⟨same, _⟩
      · cases same
      · cases same
        obtain ⟨positive, _, current, others⟩ := base
        apply others t
        rw [current]
        intro same
        cases same
        exact absurd here (Nat.ne_of_lt positive)

/-- When the scan has found nothing and the caller is not a live thread, no
thread is in use. -/
theorem free_of_noSwitch {p : Process} {l : ScheduleLocals}
    {rest : List Frame} (ok : ScannedOk p)
    (top : p.stack = .threadSchedule .noSwitch l :: rest)
    (callerFree : ∀ c, l.currentSave = some c → p.stateOf c = .free)
    (t : ThreadIndex) : p.stateOf t = .free := by
  have none := ok.scan .noSwitch l rest top
  have live := ok.table.live
  rw [top] at live
  cases live with
  | @base _ frame shape =>
      exact absurd rfl (notSchedule_of_baseFrame shape .noSwitch l rest)
  | @schedule pc l rest frame shape inside owner =>
      obtain ⟨base, currentSave⟩ := inside
      rw [currentSave] at callerFree
      cases state : p.stateOf t with
      | free => rfl
      | running =>
          rcases baseOk_cases base with ⟨c, current, running⟩ | unmarked
          · have same := (running t).mp state
            subst same
            rw [callerFree t current] at state
            cases state
          · exact absurd state (unmarked.1 t)
      | runnable =>
          refine absurd ⟨state, fun same => ?_⟩ (none t)
          rw [callerFree t same.symm] at state
          cases state

theorem aliveAfter_or {s : MainRun} {label : Label} {t : ThreadIndex}
    (alive : s.aliveAfter label t = true) :
    s.alive t = true ∨ label = .statement ∧
      ∃ rest, s.process.stack = .threadCreate .setState t.val :: rest := by
  unfold aliveAfter at alive
  split at alive
  · rename_i u rest top
    split at alive
    · rename_i here
      subst here
      exact .inr ⟨rfl, rest, top⟩
    · exact .inl alive
  · split at alive
    · cases alive
    · exact .inl alive
  · exact .inl alive

theorem not_aliveAfter_of_setFree {s : MainRun} {rest : List Frame}
    {t : ThreadIndex} (top : s.process.stack = .threadExit .setFree :: rest)
    (current : s.process.currentThread = some t) :
    s.aliveAfter .statement t = false := by
  simp [aliveAfter, top, current]

theorem step_ok {s next : MainRun} {label : Label} (ok : s.Ok)
    (tickOutside : s.TicksOutside label) (stepped : s.step label = some next) :
    next.Ok := by
  obtain ⟨_, processStep, _, alive⟩ := step_eq_some stepped
  have live := not_exited_of_step processStep
  have scanned := ok.scanned live
  have inUse (t : ThreadIndex) (isAlive : next.alive t = true) :
      next.process.stateOf t ≠ .free := by
    rw [alive] at isAlive
    rcases step_stateOf processStep t with same | ⟨rest, top, rfl, current, _⟩ |
      ⟨rest, top, rfl, marked⟩ | ⟨rest, top, current, marked⟩ | ⟨rest, top, _⟩ |
      ⟨l, rest, top, _, marked⟩ | ⟨l, rest, top, _, marked⟩
    · rw [same]
      rcases aliveAfter_or isAlive with was | ⟨rfl, rest, top⟩
      · exact ok.inUse t was
      · intro free
        rw [← same] at free
        simp only [Uthread.step, live, top, threadCreateStep, t.isLt] at processStep
        rw [← Option.some.inj processStep] at free
        change (s.process.setState t .runnable).stateOf t = .free at free
        simp at free
    · rw [not_aliveAfter_of_setFree top current] at isAlive
      cases isAlive
    · simp [marked]
    · simp [marked]
    · rcases aliveAfter_or isAlive with was | ⟨_, _, top'⟩
      · exact absurd (clear_free scanned.table top t rfl) (ok.inUse t was)
      · cases top.symm.trans top'
    · simp [marked]
    · simp [marked]
  refine ⟨fun live' => ?_, inUse, ?_⟩
  · exact step_scannedOk scanned tickOutside processStep live'
  · rintro ⟨exited, l, rest, top⟩ t
    obtain ⟨same, cause⟩ := step_exited processStep exited
    have stack : next.process.stack = s.process.stack := by rw [same]
    have state : next.process.stateOf t = s.process.stateOf t := by rw [same]; rfl
    rcases cause with ⟨rest', top'⟩ | ⟨l', rest', top', callerFree⟩
    · rw [stack, top'] at top
      cases top
    · have free := free_of_noSwitch scanned top' callerFree t
      by_contra isAlive
      exact inUse t (Bool.not_eq_false _ ▸ isAlive) (state.trans free)

/-! ## Where `main` stands -/

/-- What holds at each statement of the call that `main` makes while another
thread is runnable. -/
def CallOk (p : Process) : SchedulePc → Prop
  | .save | .scan | .compare | .take | .choose => ∃ t, Candidate p t
  | .setNext | .markNext => True
  | .testCurrent | .markCurrent => p.stateOf 0 = .running
  | .switch => p.stateOf 0 = .runnable
  | .noSwitch | .finish => False

/-- Nothing has resumed `main`, or is about to. -/
def Quiet (s : MainRun) : Prop :=
  match s.phase with
  | .creating => True
  | .calling => s.process.currentThread = some 0 ∧
      ∃ pc l, s.process.stack = [.threadSchedule pc l, .user] ∧
        CallOk s.process pc
  | .parked => s.process.currentThread ≠ some 0 ∧
      s.process.stateOf 0 = .runnable ∧
      InnermostMeets s.process fun pc _ => pc = .finish
  | .resumed => False

/-- What holds at each statement of a call that `main` makes while no other
thread is runnable. -/
def ReturnOk (p : Process) : SchedulePc → Prop
  | .save | .scan | .compare | .choose | .noSwitch => ∀ t, ¬ Candidate p t
  | .finish => True
  | .take | .setNext | .markNext | .testCurrent | .markCurrent | .switch =>
      False

/-- What holds at each statement of an activation of `thread_schedule` that
begins while `main` is parked. -/
def ResumeOk (p : Process) : SchedulePc → Prop
  | .save | .scan | .compare | .take | .choose | .setNext | .markNext =>
      p.stateOf 0 = .runnable
  | .testCurrent | .markCurrent | .switch => p.nextThread = some 0
  | .noSwitch | .finish => False

/-- `main` has been resumed, or the innermost activation of `thread_schedule`
will resume it. -/
def Resuming (s : MainRun) : Prop :=
  match s.phase with
  | .creating => False
  | .calling => s.process.currentThread = some 0 ∧
      ∃ pc l, s.process.stack = [.threadSchedule pc l, .user] ∧
        ReturnOk s.process pc
  | .parked => s.process.currentThread ≠ some 0 ∧
      ∃ pc l rest, s.process.stack = .threadSchedule pc l :: rest ∧
        ResumeOk s.process pc
  | .resumed => True

/-- The call of `main` while another thread is runnable goes on, or switches
to that thread. -/
theorem threadScheduleStep_callOk {p next : Process} {pc : SchedulePc}
    {l : ScheduleLocals} (ok : ScannedOk p)
    (top : p.stack = [.threadSchedule pc l, .user])
    (current : p.currentThread = some 0) (call : CallOk p pc)
    (stepped : threadScheduleStep p [.user] l pc = some next) :
    (next.currentThread = some 0 ∧
        ∃ pc l, next.stack = [.threadSchedule pc l, .user] ∧ CallOk next pc) ∨
      next.currentThread ≠ some 0 ∧ next.stateOf 0 = .runnable ∧
        InnermostMeets next fun pc _ => pc = .finish := by
  obtain ⟨frame, shape, inside⟩ := scheduleOk_of_top ok.table top
  have scan := ok.scan pc l [.user] top
  have frameUser : frame = .user := by
    cases shape
    rfl
  subst frameUser
  cases pc with
  | save =>
      cases stepped
      exact .inl ⟨current, _, _, rfl, call⟩
  | scan | compare =>
      simp only [threadScheduleStep] at stepped
      repeat' split at stepped
      all_goals cases stepped
      all_goals exact .inl ⟨current, _, _, rfl, call⟩
  | take =>
      simp only [threadScheduleStep] at stepped
      split at stepped <;> cases stepped
      exact .inl ⟨current, _, _, rfl, call⟩
  | choose =>
      obtain ⟨t, candidate⟩ := call
      cases found : l.foundNext with
      | none => exact absurd candidate (scan.2 found t)
      | some n =>
          simp only [threadScheduleStep, found] at stepped
          cases stepped
          exact .inl ⟨current, _, _, rfl, trivial⟩
  | setNext =>
      cases stepped
      exact .inl ⟨current, _, _, rfl, trivial⟩
  | markNext =>
      obtain ⟨base, _, n, nextEq, candidate⟩ := inside
      obtain ⟨c, currentEq, running⟩ := oneRunning_current base
      cases currentEq.symm.trans current
      simp only [threadScheduleStep, nextEq] at stepped
      cases stepped
      refine .inl ⟨current, _, _, rfl, ?_⟩
      change (p.setState n .running).stateOf 0 = .running
      rw [Process.stateOf_setState]
      split
      · rfl
      · exact running
  | testCurrent =>
      have running : p.stateOf 0 = .running := call
      simp only [threadScheduleStep, inside.1, current, running, if_true] at stepped
      cases stepped
      exact .inl ⟨current, _, _, rfl, running⟩
  | markCurrent =>
      simp only [threadScheduleStep, inside.1, current] at stepped
      cases stepped
      refine .inl ⟨current, _, _, rfl, ?_⟩
      change (p.setState 0 .runnable).stateOf 0 = .runnable
      simp
  | switch =>
      obtain ⟨n, c, handing, _⟩ := inside
      obtain ⟨c', n', currentEq, nextEq, nextCurrent, _, states, _, resumed⟩ :=
        threadSwitch_eq_some stepped
      cases currentEq.symm.trans current
      cases handing.currentEq.symm.trans current
      cases nextEq.symm.trans handing.nextEq
      rw [Process.sp_setSp, if_neg handing.distinct] at resumed
      refine .inr ⟨?_, (states 0).trans call, ?_⟩
      · rw [nextCurrent]
        exact fun same => handing.distinct (Option.some.inj same)
      · exact .of_savedOk (ok.table.saved n next.stack resumed) fun _ => rfl
  | noSwitch => exact call.elim
  | finish => exact call.elim

/-- The call of `main` while no other thread is runnable returns. -/
theorem threadScheduleStep_returnOk {p next : Process} {pc : SchedulePc}
    {l : ScheduleLocals} (ok : ScannedOk p)
    (top : p.stack = [.threadSchedule pc l, .user])
    (current : p.currentThread = some 0) (returning : ReturnOk p pc)
    (stepped : threadScheduleStep p [.user] l pc = some next) :
    next.currentThread = some 0 ∧ (next.stack = [.user] ∨
      ∃ pc l, next.stack = [.threadSchedule pc l, .user] ∧ ReturnOk next pc) := by
  obtain ⟨frame, shape, inside⟩ := scheduleOk_of_top ok.table top
  have scan := ok.scan pc l [.user] top
  have frameUser : frame = .user := by
    cases shape
    rfl
  subst frameUser
  cases pc with
  | save =>
      cases stepped
      exact ⟨current, .inr ⟨_, _, rfl, returning⟩⟩
  | scan =>
      simp only [threadScheduleStep] at stepped
      split at stepped <;> cases stepped
      all_goals exact ⟨current, .inr ⟨_, _, rfl, returning⟩⟩
  | compare =>
      simp only [threadScheduleStep] at stepped
      split at stepped
      · split at stepped <;> cases stepped
        · rename_i inTable test
          exact absurd ⟨test.1, inside.2.1 ▸ test.2⟩ (returning ⟨l.i, inTable⟩)
        · exact ⟨current, .inr ⟨_, _, rfl, returning⟩⟩
      · cases stepped
  | choose =>
      cases found : l.foundNext with
      | none =>
          simp only [threadScheduleStep, found] at stepped
          cases stepped
          exact ⟨current, .inr ⟨_, _, rfl, returning⟩⟩
      | some n => exact absurd (scan.1 n found).1 (returning n)
  | noSwitch =>
      obtain ⟨base, currentSave⟩ := inside
      obtain ⟨c, currentEq, running⟩ := oneRunning_current base
      cases currentEq.symm.trans current
      simp only [threadScheduleStep, currentSave, current, running] at stepped
      cases stepped
      exact ⟨current, .inr ⟨_, _, rfl, trivial⟩⟩
  | finish =>
      cases stepped
      exact ⟨current, .inl rfl⟩
  | take | setNext | markNext | testCurrent | markCurrent | switch =>
      exact returning.elim

theorem eq_zero_of_firstCandidate {p : Process} {n : ThreadIndex}
    (runnable : p.stateOf 0 = .runnable) (current : p.currentThread ≠ some 0)
    (first : FirstCandidate p n) : n = 0 := by
  by_contra other
  exact first.2 0 (Fin.pos_of_ne_zero other) ⟨runnable, Ne.symm current⟩

/-- An activation of `thread_schedule` that began while `main` is parked goes
on, or switches to `main`. -/
theorem threadScheduleStep_resumeOk {p next : Process} {pc : SchedulePc}
    {l : ScheduleLocals} {rest : List Frame} (ok : ScannedOk p)
    (top : p.stack = .threadSchedule pc l :: rest)
    (current : p.currentThread ≠ some 0) (resuming : ResumeOk p pc)
    (stepped : threadScheduleStep p rest l pc = some next) :
    next.currentThread = some 0 ∨ next.currentThread ≠ some 0 ∧
      ∃ pc l rest, next.stack = .threadSchedule pc l :: rest ∧
        ResumeOk next pc := by
  have scan := ok.scan pc l rest top
  cases pc with
  | save =>
      cases stepped
      exact .inr ⟨current, _, _, _, rfl, resuming⟩
  | scan | compare | take =>
      simp only [threadScheduleStep] at stepped
      repeat' split at stepped
      all_goals cases stepped
      all_goals exact .inr ⟨current, _, _, _, rfl, resuming⟩
  | choose =>
      cases found : l.foundNext with
      | none => exact absurd ⟨resuming, Ne.symm current⟩ (scan.2 found 0)
      | some n =>
          simp only [threadScheduleStep, found] at stepped
          cases stepped
          exact .inr ⟨current, _, _, _, rfl, resuming⟩
  | setNext =>
      cases stepped
      exact .inr ⟨current, _, _, _, rfl, resuming⟩
  | markNext =>
      simp only [threadScheduleStep] at stepped
      split at stepped <;> cases stepped
      rename_i n nextEq
      refine .inr ⟨current, _, _, _, rfl, ?_⟩
      rw [eq_zero_of_firstCandidate resuming current (scan n nextEq)] at nextEq
      exact nextEq
  | testCurrent =>
      simp only [threadScheduleStep] at stepped
      repeat' split at stepped
      all_goals cases stepped
      all_goals exact .inr ⟨current, _, _, _, rfl, resuming⟩
  | markCurrent =>
      simp only [threadScheduleStep] at stepped
      split at stepped <;> cases stepped
      exact .inr ⟨current, _, _, _, rfl, resuming⟩
  | switch =>
      obtain ⟨_, n, _, nextEq, nextCurrent, _⟩ := threadSwitch_eq_some stepped
      cases nextEq.symm.trans resuming
      exact .inl nextCurrent
  | noSwitch => exact resuming.elim
  | finish => exact resuming.elim

/-- While `main` is parked, a step that does not reschedule leaves it
parked. -/
theorem step_parked {s next : MainRun} {label : Label} (ok : s.Ok)
    (tickOutside : s.TicksOutside label) (parked : s.phase = .parked)
    (quiet : s.Quiet) (stepped : s.step label = some next)
    (undisturbed : ¬ s.Reschedules label) :
    next.process.currentThread ≠ some 0 ∧ next.process.stateOf 0 = .runnable ∧
      InnermostMeets next.process fun pc _ => pc = .finish := by
  obtain ⟨follows, processStep, _, _⟩ := step_eq_some stepped
  have live := not_exited_of_step processStep
  have table := (ok.scanned live).table
  simp only [Quiet, parked] at quiet
  obtain ⟨current, runnable, finishing⟩ := quiet
  have running := table.live
  generalize top : s.process.stack = stack at running
  cases running with
  | @schedule pc l rest frame shape inside owner =>
      cases finishing pc l rest top
      obtain ⟨_, scheduleStep⟩ := scheduleStep_of_step top tickOutside processStep
      rw [← Option.some.inj scheduleStep]
      exact ⟨current, runnable, .of_outside (notSchedule_of_baseFrame shape)⟩
  | @base _ frame shape base returned owner =>
      have notInit : NotInit frame := by
        rintro pc rfl
        cases pc with
        | register => simp [base.2 0] at runnable
        | setCurrent => simp [base.2 0] at runnable
        | setRunning => simp [base.2 0] at runnable
        | clear i => exact current base.2.2.1
      have notInitTop (pc : InitPc) (rest : List Frame) :
          s.process.stack ≠ .threadInit pc :: rest := by
        rw [top]
        rintro rfl
        rcases baseFrame_eq_some.mp shape with ⟨same, _⟩ | ⟨same, _⟩
        · cases same
        · cases same
          exact notInit pc rfl
      have notScheduleTop (pc : SchedulePc) (l : ScheduleLocals)
          (rest : List Frame) :
          s.process.stack ≠ .threadSchedule pc l :: rest :=
        top ▸ notSchedule_of_baseFrame shape pc l rest
      refine ⟨?_, ?_, ?_⟩
      · rcases step_currentThread processStep with
          ⟨same, _⟩ | ⟨rest, top', _⟩ | ⟨l, rest, _, top', _⟩
        · rw [same]
          exact current
        · exact absurd top' (notInitTop _ _)
        · exact absurd top' (notScheduleTop _ _ _)
      · rcases step_stateOf processStep 0 with same | ⟨_, _, _, isCurrent, _⟩ |
          ⟨_, _, _, marked⟩ | ⟨_, top', _⟩ | ⟨_, top', _⟩ | ⟨_, _, top', _⟩ |
          ⟨_, _, top', _⟩
        · exact same.trans runnable
        · exact absurd isCurrent current
        · exact marked
        · exact absurd top' (notInitTop _ _)
        · exact absurd top' (notInitTop _ _)
        · exact absurd top' (notScheduleTop _ _ _)
        · exact absurd top' (notScheduleTop _ _ _)
      · refine step_innermost_of_outside (top ▸ shape) ?_ processStep
        rintro (rfl | rfl | ⟨rfl, rfl⟩)
        · exact absurd trivial undisturbed
        · have creating := follows.2.1
          rw [parked] at creating
          cases creating
        · rcases baseFrame_eq_some.mp shape with ⟨_, same⟩ | ⟨rfl, _⟩
          · cases same
          · exact absurd (by simp [Reschedules, top]) undisturbed

/-- `main` calls the scheduler from its own code. -/
theorem stack_of_schedule {s next : MainRun} (ok : s.Ok)
    (stepped : s.step .schedule = some next) :
    s.process.currentThread = some 0 ∧ s.phase = .creating ∧
      next.process = s.process.setStack [.scheduleEntry, .user] := by
  obtain ⟨follows, processStep, _, _⟩ := step_eq_some stepped
  have live := not_exited_of_step processStep
  refine ⟨follows.1, follows.2.1, ?_⟩
  simp only [Uthread.step, live] at processStep
  have running := (ok.scanned live).table.live
  generalize top : s.process.stack = stack at processStep running
  cases running with
  | @schedule pc l rest => cases processStep
  | @base _ frame shape =>
      rcases baseFrame_eq_some.mp shape with ⟨rfl, _⟩ | ⟨rfl, isCall⟩
      · exact (Option.some.inj processStep).symm
      · cases frame <;> first
          | exact absurd rfl isCall.1
          | cases processStep

theorem step_quiet {s next : MainRun} {label : Label} (ok : s.Ok)
    (quiet : s.Quiet) (tickOutside : s.TicksOutside label)
    (undisturbed : s.Undisturbed label) (stepped : s.step label = some next) :
    next.Quiet := by
  obtain ⟨_, processStep, phase, _⟩ := step_eq_some stepped
  have live := not_exited_of_step processStep
  cases before : s.phase with
  | creating =>
      rw [before] at phase
      by_cases calls : label = .schedule
      · subst calls
        obtain ⟨current, _, entered⟩ := stack_of_schedule ok stepped
        obtain ⟨t, other, runnable⟩ := undisturbed.1 rfl
        simp only [phaseAfter, if_true] at phase
        simp only [Quiet, phase]
        rw [entered]
        refine ⟨current, _, _, rfl, t, runnable, fun same => other ?_⟩
        exact Option.some.inj (same.trans current)
      · simp only [phaseAfter, calls, if_false] at phase
        simp only [Quiet, phase]
  | calling =>
      rw [before] at phase
      simp only [Quiet, before] at quiet
      obtain ⟨current, pc, l, top, call⟩ := quiet
      obtain ⟨_, scheduleStep⟩ := scheduleStep_of_step top tickOutside processStep
      rcases threadScheduleStep_callOk (ok.scanned live) top current call
        scheduleStep with ⟨stays, pc, l, inside, goesOn⟩ | left
      · have within : InSchedule next.process := ⟨pc, l, _, inside⟩
        simp only [phaseAfter, stays, ne_eq, not_true_eq_false, if_false, within,
          if_true] at phase
        simp only [Quiet, phase]
        exact ⟨stays, pc, l, inside, goesOn⟩
      · simp only [phaseAfter, ne_eq, left.1, not_false_eq_true, if_true] at phase
        simp only [Quiet, phase]
        exact left
  | parked =>
      have stays := step_parked ok tickOutside before quiet stepped
        (undisturbed.2 (by simp [before]))
      rw [before] at phase
      simp only [phaseAfter, stays.1, if_false] at phase
      simp only [Quiet, phase]
      exact stays
  | resumed => simp only [Quiet, before] at quiet

theorem step_resuming {s next : MainRun} {label : Label} (ok : s.Ok)
    (resuming : s.Resuming) (tickOutside : s.TicksOutside label)
    (stepped : s.step label = some next) : next.Resuming := by
  obtain ⟨_, processStep, phase, _⟩ := step_eq_some stepped
  have live := not_exited_of_step processStep
  cases before : s.phase with
  | creating => simp only [Resuming, before] at resuming
  | calling =>
      rw [before] at phase
      simp only [Resuming, before] at resuming
      obtain ⟨current, pc, l, top, returning⟩ := resuming
      obtain ⟨_, scheduleStep⟩ := scheduleStep_of_step top tickOutside processStep
      obtain ⟨stays, returned | ⟨pc, l, inside, goesOn⟩⟩ :=
        threadScheduleStep_returnOk (ok.scanned live) top current returning
          scheduleStep
      · have outside : ¬ InSchedule next.process := by
          rintro ⟨pc, l, rest, inside⟩
          rw [returned] at inside
          cases inside
        simp only [phaseAfter, stays, ne_eq, not_true_eq_false, if_false,
          outside] at phase
        simp only [Resuming, phase]
      · have within : InSchedule next.process := ⟨pc, l, _, inside⟩
        simp only [phaseAfter, stays, ne_eq, not_true_eq_false, if_false, within,
          if_true] at phase
        simp only [Resuming, phase]
        exact ⟨stays, pc, l, inside, goesOn⟩
  | parked =>
      rw [before] at phase
      simp only [Resuming, before] at resuming
      obtain ⟨current, pc, l, rest, top, heading⟩ := resuming
      obtain ⟨_, scheduleStep⟩ := scheduleStep_of_step top tickOutside processStep
      rcases threadScheduleStep_resumeOk (ok.scanned live) top current heading
        scheduleStep with back | goesOn
      · simp only [phaseAfter, back, if_true] at phase
        simp only [Resuming, phase]
      · simp only [phaseAfter, goesOn.1, if_false] at phase
        simp only [Resuming, phase]
        exact goesOn
  | resumed =>
      rw [before] at phase
      simp only [phaseAfter] at phase
      simp only [Resuming, phase]

/-- A step that breaks the condition starts what resumes `main`. -/
theorem resuming_of_disturbed {s next : MainRun} {label : Label} (ok : s.Ok)
    (quiet : s.Quiet) (tickOutside : s.TicksOutside label)
    (disturbed : ¬ s.Undisturbed label) (stepped : s.step label = some next) :
    next.Resuming := by
  obtain ⟨_, processStep, phase, _⟩ := step_eq_some stepped
  have live := not_exited_of_step processStep
  by_cases calls : label = .schedule
  · subst calls
    obtain ⟨current, creating, entered⟩ := stack_of_schedule ok stepped
    rw [creating] at phase
    simp only [phaseAfter, if_true] at phase
    simp only [Resuming, phase]
    rw [entered]
    refine ⟨current, _, _, rfl, fun t candidate => disturbed ⟨fun _ => ?_, ?_⟩⟩
    · refine ⟨t, fun same => candidate.2 ?_, candidate.1⟩
      rw [same]
      exact current.symm
    · exact fun called => absurd creating called
  · have reschedules : s.phase ≠ .creating ∧ s.Reschedules label := by
      by_contra other
      exact disturbed ⟨fun same => absurd same calls,
        fun called again => other ⟨called, again⟩⟩
    obtain ⟨called, again⟩ := reschedules
    cases before : s.phase with
    | creating => exact absurd before called
    | calling =>
        simp only [Quiet, before] at quiet
        obtain ⟨_, pc, l, top, _⟩ := quiet
        obtain ⟨rfl, _⟩ := scheduleStep_of_step top tickOutside processStep
        simp [Reschedules, top] at again
    | parked =>
        rw [before] at phase
        simp only [Quiet, before] at quiet
        obtain ⟨current, runnable, _⟩ := quiet
        have entered : ∃ rest, next.process =
            s.process.setStack (.scheduleEntry :: rest) := by
          cases label with
          | tick =>
              simp only [Uthread.step, live] at processStep
              split at processStep
              · cases processStep
              · split at processStep
                · exact ⟨_, (Option.some.inj processStep).symm⟩
                · cases processStep
          | statement =>
              simp only [Reschedules] at again
              cases top : s.process.stack with
              | nil => simp [top] at again
              | cons frame rest =>
                  simp only [top, List.head?_cons, Option.any_some,
                    decide_eq_true_eq] at again
                  subst again
                  simp only [Uthread.step, live, top, threadExitStep] at processStep
                  exact ⟨_, (Option.some.inj processStep).symm⟩
          | create | schedule | exit => exact again.elim
        obtain ⟨rest, entered⟩ := entered
        have same : next.process.currentThread = s.process.currentThread := by
          rw [entered]
          rfl
        simp only [phaseAfter, same, current, if_false] at phase
        simp only [Resuming, phase]
        rw [entered]
        exact ⟨current, _, _, _, rfl, runnable⟩
    | resumed => simp only [Quiet, before] at quiet

theorem resumed_of_resuming {s : MainRun} (resuming : s.Resuming)
    (outside : Outside s.process) : s.phase = .resumed := by
  cases before : s.phase with
  | creating => simp only [Resuming, before] at resuming
  | calling =>
      simp only [Resuming, before] at resuming
      obtain ⟨_, pc, l, top, _⟩ := resuming
      exact absurd ⟨pc, l, _, top⟩ outside.2
  | parked =>
      simp only [Resuming, before] at resuming
      obtain ⟨_, pc, l, rest, top, _⟩ := resuming
      exact absurd ⟨pc, l, rest, top⟩ outside.2
  | resumed => rfl

/-- A run that ends outside the scheduler without having resumed `main` meets
the condition at every step. -/
theorem undisturbed_of_not_resumed {s last : MainRun} {labels : List Label}
    (ok : s.Ok) (quiet : s.Quiet)
    (meets : RunMeets step TicksOutside s labels)
    (ran : run step s labels = some last) (outside : Outside last.process)
    (parked : last.phase ≠ .resumed) : RunMeets step Undisturbed s labels := by
  induction labels generalizing s with
  | nil => trivial
  | cons label labels ih =>
      obtain ⟨next, stepped, rest⟩ := run_cons_eq_some.mp ran
      have nextOk := step_ok ok meets.1 stepped
      rw [← runMeets_cons_of_some stepped]
      by_cases undisturbed : s.Undisturbed label
      · exact ⟨undisturbed, ih nextOk
          (step_quiet ok quiet meets.1 undisturbed stepped)
          (meets.2 next stepped) rest⟩
      · exfalso
        have preserved {s next : MainRun} {label : Label} (holds : s.Ok ∧ s.Resuming)
            (tickOutside : s.TicksOutside label)
            (stepped : s.step label = some next) : next.Ok ∧ next.Resuming :=
          ⟨step_ok holds.1 tickOutside stepped,
            step_resuming holds.1 holds.2 tickOutside stepped⟩
        have resuming := resuming_of_disturbed ok quiet meets.1 undisturbed stepped
        have reached := invariant_of_runMeets preserved ⟨nextOk, resuming⟩
          (meets.2 next stepped) rest
        exact parked (resumed_of_resuming reached.2 outside)

/-- In a run without ticks inside the scheduler, `main` stays parked when it
calls the scheduler while a thread is runnable and nothing calls it again, and
once control is outside the scheduler only then. -/
theorem mainParked_iff_undisturbed {count : Nat} {labels : List Label}
    {s : MainRun} (meets : RunMeets step TicksOutside (begin count) labels)
    (ran : run step (begin count) labels = some s) :
    (RunMeets step Undisturbed (begin count) labels → s.MainParked) ∧
      (Outside s.process → s.MainParked →
        RunMeets step Undisturbed (begin count) labels) := by
  refine ⟨fun undisturbed => ?_, fun outside parked => ?_⟩
  · have preserved {s next : MainRun} {label : Label} (holds : s.Ok ∧ s.Quiet)
        (guard : s.TicksOutside label ∧ s.Undisturbed label)
        (stepped : s.step label = some next) : next.Ok ∧ next.Quiet :=
      ⟨step_ok holds.1 guard.1 stepped,
        step_quiet holds.1 holds.2 guard.1 guard.2 stepped⟩
    have reached := invariant_of_runMeets preserved ⟨begin_ok count, trivial⟩
      (meets.and undisturbed) ran
    refine ⟨fun resumed => ?_, reached.1.ended⟩
    have quiet := reached.2
    simp only [Quiet, resumed] at quiet
  · exact undisturbed_of_not_resumed (begin_ok count) trivial meets ran outside
      parked.parked

/-! ## Two runs -/

/-- `main` creates two threads and calls the scheduler. -/
def parkMain : List Label :=
  createTwo ++ (Label.schedule :: List.replicate 12 Label.statement)

/-- A tick in thread 1 resumes `main`. -/
theorem main_resumed_by_tick :
    ∃ s, run step (begin 2) (parkMain ++ (.tick :: List.replicate 10 .statement)) =
        some s ∧ s.phase = .resumed ∧ ¬ s.MainParked := by
  have reached : (run step (begin 2)
      (parkMain ++ (.tick :: List.replicate 10 .statement))).map MainRun.phase =
      some .resumed := by
    decide +kernel
  obtain ⟨s, ran, resumed⟩ := Option.map_eq_some_iff.mp reached
  exact ⟨s, ran, resumed, fun parked => parked.parked resumed⟩

theorem parkMain_mainParked :
    ∃ s, run step (begin 2) parkMain = some s ∧ s.phase = .parked ∧
      s.MainParked := by
  have reached : (run step (begin 2) parkMain).map MainRun.phase =
      some .parked := by
    decide +kernel
  obtain ⟨s, ran, parked⟩ := Option.map_eq_some_iff.mp reached
  exact ⟨s, ran, parked, (mainParked_iff_undisturbed (by decide +kernel) ran).1
    (by decide +kernel)⟩

end MainRun

end Xv6.Uthread
