import Mathlib.Algebra.GroupWithZero.Nat
import Xv6.UthreadScan

/-!
# Slots taken by concurrent calls of `thread_create`

`thread_create` finds a `FREE` slot in one statement and marks it `RUNNABLE`
five statements later.  A tick in between lets another thread run, whose own
`thread_create` finds the same slot.  Two calls then build their first frame
in one slot, and the later one does so after the slot has become `RUNNABLE`.

Each call of `thread_create` gets a number here, and each slot remembers the
call that has set it since its last `thread_exit`.  Ticks may be taken
anywhere, also inside `thread_schedule`.
-/

namespace Xv6.Uthread

open LabelledRuns

/-- The activations below those of `thread_schedule`. -/
def baseOf : List Frame → List Frame
  | .threadSchedule _ _ :: rest => baseOf rest
  | stack => stack

/-- The statement and the slot of a `thread_create` that has chosen its slot
and has not yet returned. -/
def creation (stack : List Frame) : Option (CreatePc × Nat) :=
  match baseOf stack with
  | .threadCreate pc t :: _ => if pc = .scan then none else some (pc, t)
  | _ => none

/-- The activations of a thread: those that run when it is the current one,
and those that its saved stack pointer denotes otherwise. -/
def Process.context (p : Process) (u : ThreadIndex) : Option (List Frame) :=
  if p.currentThread = some u then some p.stack else (p.allThread u).sp

/-- The unfinished `thread_create` of a thread. -/
def Process.creating (p : Process) (u : ThreadIndex) :
    Option (CreatePc × Nat) :=
  (p.context u).bind creation

/-- Some unfinished `thread_create` has chosen the slot. -/
def Initialising (p : Process) (t : ThreadIndex) : Prop :=
  ∃ u, (p.creating u).map Prod.snd = some t.val

instance (p : Process) (t : ThreadIndex) : Decidable (Initialising p t) :=
  inferInstanceAs (Decidable (∃ _ : ThreadIndex, _ = _))

/-- A process whose calls of `thread_create` are numbered.  `callOf` is the
last call that each thread has made, and `writer` the call that has set a slot
since the last `thread_exit` of it. -/
structure CreationRun where
  process : Process
  calls : Nat
  callOf : ThreadIndex → Nat
  writer : ThreadIndex → Option Nat

namespace CreationRun

/-- The process at the start, before the first call. -/
def begin : CreationRun where
  process := start
  calls := 0
  callOf := fun _ => 0
  writer := fun _ => none

/-- The call of `thread_create` that the current thread has made last. -/
def call (s : CreationRun) : Option Nat :=
  s.process.currentThread.map s.callOf

/-- The call of each thread after the next step. -/
def callAfter (s : CreationRun) (label : Label) (u : ThreadIndex) : Nat :=
  if label = .create ∧ s.process.currentThread = some u then s.calls
  else s.callOf u

/-- The writer of each slot after the next step. -/
def writerAfter (s : CreationRun) (label : Label) (u : ThreadIndex) :
    Option Nat :=
  match label, s.process.stack with
  | .statement, .threadCreate pc t :: _ =>
      if pc ≠ .scan ∧ u.val = t then s.call else s.writer u
  | .statement, .threadExit .setFree :: _ =>
      if s.process.currentThread = some u then none else s.writer u
  | _, _ => s.writer u

/-- One step of the process. -/
def step (s : CreationRun) (label : Label) : Option CreationRun :=
  (Uthread.step s.process label).map fun next =>
    { process := next
      calls := if label = .create then s.calls + 1 else s.calls
      callOf := s.callAfter label
      writer := s.writerAfter label }

/-- The statement of `thread_create` that is about to run sets a slot of its
own: the slot is `FREE`, at the first of these statements no call has set it
since its last `thread_exit`, and from then on this call alone has. -/
def OwnSlot (s : CreationRun) (label : Label) : Prop :=
  match label, s.process.stack with
  | .statement, .threadCreate pc t :: _ =>
      pc = .scan ∨ ∃ u : ThreadIndex, u.val = t ∧
        s.process.stateOf u = .free ∧
        s.writer u = if pc = .setSp then none else s.call
  | _, _ => True

instance (s : CreationRun) (label : Label) : Decidable (s.OwnSlot label) := by
  unfold OwnSlot
  split <;> infer_instance

/-- No tick is taken inside `thread_schedule`, and no thread is in the search
loop of `thread_create` while another one is past that loop in a call of its
own. -/
def Alone (s : CreationRun) (label : Label) : Prop :=
  TickOutside s.process label ∧
    match label, s.process.stack with
    | .statement, .threadCreate .scan _ :: _ =>
        ∀ u, s.process.creating u = none
    | _, _ => True

instance (s : CreationRun) (label : Label) : Decidable (s.Alone label) := by
  unfold Alone
  exact @instDecidableAnd _ _ _ (by split <;> infer_instance)

/-- The step neither lets `thread_create` choose a slot that another
unfinished call has chosen nor lets `thread_schedule` mark such a slot
`RUNNING`. -/
def Separate (s : CreationRun) (label : Label) : Prop :=
  match label, s.process.stack with
  | .statement, .threadCreate .scan t :: _ =>
      ∀ u : ThreadIndex, u.val = t → s.process.stateOf u = .free →
        ¬ Initialising s.process u
  | .statement, .threadSchedule .markNext _ :: _ =>
      ∀ u, s.process.nextThread = some u → ¬ Initialising s.process u
  | _, _ => True

/-! ## The invariant -/

/-- A thread's activations of `thread_schedule` have saved that thread. -/
def ActsOk (owner : Option ThreadIndex) : List Frame → Prop
  | .threadSchedule pc l :: rest =>
      (pc ≠ .save → l.currentSave = owner) ∧ ActsOk owner rest
  | _ => True

/-- Thread code, possibly inside one call of the library. -/
def BaseShape : List Frame → Prop
  | [.user] | [.threadCreate _ _, .user] | [.threadExit _, .user] => True
  | _ => False

local instance initShape_neZero : NeZero 4 := ⟨by decide⟩

/-- `thread_init`, called by `main`, has reached a statement at which the
current thread is as given. -/
def InitShape (current : Option ThreadIndex) : List Frame → Prop
  | [.threadInit pc, .user] =>
      match pc with
      | .register | .setCurrent => current = none
      | .setRunning => current = some 0
      | .clear i => current = some 0 ∧ 0 < i
  | _ => False

/-- The thread has neither executed the first statement of `thread_exit` nor
is it in `thread_init` before thread 0 is marked. -/
def Occupied (stack : List Frame) : Prop :=
  match baseOf stack with
  | .threadExit pc :: _ => pc = .setFree
  | .threadInit pc :: _ => ∃ i, pc = .clear i
  | _ => True

/-- An activation of `thread_schedule` that will switch finds in `next_thread`
the slot that it has marked, or the current thread when it was itself switched
away from in between. -/
def NextOk (p : Process) : List Frame → Prop
  | .threadSchedule pc _ :: rest =>
      match pc with
      | .save | .scan | .compare | .take | .choose | .noSwitch | .finish =>
          NextOk p rest
      | .setNext | .markNext => True
      | .testCurrent | .markCurrent | .switch =>
          p.nextThread = p.currentThread ∨
            ∃ n, p.nextThread = some n ∧ p.stateOf n = .running
  | _ => True

/-- What is known of a thread that does not run. -/
structure SuspendedOk (p : Process) (u : ThreadIndex) (stack : List Frame) :
    Prop where
  acts : ActsOk (some u) stack
  base : BaseShape (baseOf stack)
  free : p.stateOf u = .free → creation stack = none

/-- What is known of an unfinished `thread_create` of thread `u`. -/
structure CreatingOk (s : CreationRun) (u : ThreadIndex) (pc : CreatePc)
    (t : ThreadIndex) : Prop where
  free : s.process.stateOf t = .free
  notCurrent : s.process.currentThread ≠ some t
  writer : s.writer t = if pc = .setSp then none else some (s.callOf u)

/-- The invariant of runs whose steps are all separate. -/
structure Ok (s : CreationRun) : Prop where
  acts : ActsOk s.process.currentThread s.process.stack
  base : (BaseShape (baseOf s.process.stack) ∧
      s.process.currentThread ≠ none) ∨
    (InitShape s.process.currentThread (baseOf s.process.stack) ∧
      (∀ u, s.process.currentThread ≠ some u →
        (s.process.allThread u).sp = none) ∧ ∀ t, s.writer t = none)
  next : NextOk s.process s.process.stack
  occupied : ∀ u, s.process.currentThread = some u →
    Occupied s.process.stack → s.process.stateOf u ≠ .free
  suspended : ∀ u stack, s.process.currentThread ≠ some u →
    (s.process.allThread u).sp = some stack → SuspendedOk s.process u stack
  creating : ∀ u pc t, s.process.creating u = some (pc, t) →
    ∃ v : ThreadIndex, v.val = t ∧ CreatingOk s u pc v
  unique : ∀ u v pc pc' t, s.process.creating u = some (pc, t) →
    s.process.creating v = some (pc', t) → u = v
  settled : ∀ t, s.process.stateOf t = .free → ¬ Initialising s.process t →
    s.writer t = none

/-! ## What the stack says of a thread -/

@[simp]
theorem baseOf_threadSchedule (pc : SchedulePc) (l : ScheduleLocals)
    (rest : List Frame) :
    baseOf (.threadSchedule pc l :: rest) = baseOf rest :=
  rfl

theorem creation_congr {stack stack' : List Frame}
    (same : baseOf stack' = baseOf stack) :
    creation stack' = creation stack := by
  simp only [creation, same]

theorem occupied_congr {stack stack' : List Frame}
    (same : baseOf stack' = baseOf stack) :
    Occupied stack' ↔ Occupied stack := by
  simp only [Occupied, same]

theorem creating_of_current {p : Process} {u : ThreadIndex}
    (current : p.currentThread = some u) :
    p.creating u = creation p.stack := by
  simp [Process.creating, Process.context, current]

theorem creating_of_suspended {p : Process} {u : ThreadIndex}
    (suspended : p.currentThread ≠ some u) :
    p.creating u = (p.allThread u).sp.bind creation := by
  simp [Process.creating, Process.context, suspended]

theorem initialising_iff {p : Process} {t : ThreadIndex} :
    Initialising p t ↔ ∃ u pc, p.creating u = some (pc, t.val) := by
  constructor
  · rintro ⟨u, chosen⟩
    obtain ⟨⟨pc, t'⟩, creating, same⟩ := Option.map_eq_some_iff.mp chosen
    exact ⟨u, pc, creating.trans (by rw [← same])⟩
  · rintro ⟨u, pc, creating⟩
    exact ⟨u, by rw [creating]; rfl⟩

theorem Ok.notInitialising_current {s : CreationRun} (ok : s.Ok)
    {u : ThreadIndex} (current : s.process.currentThread = some u) :
    ¬ Initialising s.process u := by
  intro initialising
  obtain ⟨v, pc, creating⟩ := initialising_iff.mp initialising
  obtain ⟨t, same, creatingOk⟩ := ok.creating v pc u.val creating
  have : t = u := Fin.ext same
  exact creatingOk.notCurrent (this ▸ current)

theorem nextOk_of_eq {p : Process} (same : p.nextThread = p.currentThread)
    (stack : List Frame) : NextOk p stack := by
  induction stack with
  | nil => trivial
  | cons frame rest ih =>
      cases frame with
      | threadSchedule pc l =>
          cases pc <;> first | exact ih | trivial | exact .inl same
      | _ => trivial

theorem nextOk_congr (p q : Process) (nextEq : q.nextThread = p.nextThread)
    (currentEq : q.currentThread = p.currentThread)
    (states : ∀ u, q.stateOf u = p.stateOf u) {stack : List Frame}
    (ok : NextOk p stack) : NextOk q stack := by
  induction stack with
  | nil => trivial
  | cons frame rest ih =>
      cases frame with
      | threadSchedule pc l =>
          cases pc <;> simp only [NextOk, nextEq, currentEq, states] at ok ⊢ <;>
            first | exact ih ok | exact ok
      | _ => trivial

/-! ## Steps that set no slot -/

/-- The step leaves the table and every unfinished `thread_create` alone. -/
structure Quiet (s next : CreationRun) : Prop where
  table : next.process.allThread = s.process.allThread
  current : next.process.currentThread = s.process.currentThread
  writer : next.writer = s.writer
  callOf : ∀ u, next.callOf u = s.callOf u ∨
    (s.process.currentThread = some u ∧ creation s.process.stack = none)
  creation : creation next.process.stack = creation s.process.stack

theorem Quiet.creating {s next : CreationRun} (quiet : Quiet s next)
    (u : ThreadIndex) : next.process.creating u = s.process.creating u := by
  by_cases current : s.process.currentThread = some u
  · rw [creating_of_current current,
      creating_of_current (quiet.current.trans current), quiet.creation]
  · have suspended : next.process.currentThread ≠ some u :=
      quiet.current ▸ current
    rw [creating_of_suspended current, creating_of_suspended suspended,
      quiet.table]

theorem Quiet.stateOf {s next : CreationRun} (quiet : Quiet s next)
    (u : ThreadIndex) : next.process.stateOf u = s.process.stateOf u := by
  unfold Process.stateOf
  rw [quiet.table]

theorem Quiet.initialising {s next : CreationRun} (quiet : Quiet s next)
    (t : ThreadIndex) :
    Initialising next.process t ↔ Initialising s.process t := by
  simp only [Initialising, quiet.creating]

/-- A quiet step keeps the invariant when the new stack is as it should be. -/
theorem Ok.of_quiet {s next : CreationRun} (ok : s.Ok) (quiet : Quiet s next)
    (acts : ActsOk s.process.currentThread next.process.stack)
    (base : (BaseShape (baseOf next.process.stack) ∧
        s.process.currentThread ≠ none) ∨
      (InitShape s.process.currentThread (baseOf next.process.stack) ∧
        (∀ u, s.process.currentThread ≠ some u →
          (s.process.allThread u).sp = none) ∧ ∀ t, s.writer t = none))
    (nextOk : NextOk next.process next.process.stack)
    (occupied : Occupied next.process.stack → Occupied s.process.stack) :
    next.Ok where
  acts := by rwa [quiet.current]
  base := by rwa [quiet.current, quiet.table, quiet.writer]
  next := nextOk
  occupied u current inUse := by
    rw [quiet.stateOf]
    exact ok.occupied u (quiet.current ▸ current) (occupied inUse)
  suspended u stack current saved := by
    rw [quiet.current] at current
    rw [quiet.table] at saved
    obtain ⟨actsOk, shape, free⟩ := ok.suspended u stack current saved
    exact ⟨actsOk, shape, fun isFree => free (quiet.stateOf u ▸ isFree)⟩
  creating u pc t creating := by
    rw [quiet.creating] at creating
    obtain ⟨v, same, free, notCurrent, writer⟩ := ok.creating u pc t creating
    refine ⟨v, same, (quiet.stateOf v).trans free, quiet.current ▸ notCurrent, ?_⟩
    have sameCall : next.callOf u = s.callOf u := by
      refine (quiet.callOf u).resolve_right fun ⟨current, noCall⟩ => ?_
      rw [creating_of_current current, noCall] at creating
      cases creating
    rw [quiet.writer, sameCall, writer]
  unique u v pc pc' t first second := by
    rw [quiet.creating] at first second
    exact ok.unique u v pc pc' t first second
  settled t free unchosen := by
    rw [quiet.writer]
    rw [quiet.stateOf] at free
    exact ok.settled t free fun chosen =>
      unchosen ((quiet.initialising t).mpr chosen)

/-- `thread_schedule` marks a slot that no unfinished call has chosen. -/
theorem Ok.of_mark {s next : CreationRun} (ok : s.Ok) {n : ThreadIndex}
    {state : ThreadState} {stack : List Frame} (marked : state ≠ .free)
    (unchosen : ¬ Initialising s.process n)
    (process : next.process = (s.process.setState n state).setStack stack)
    (callOf : next.callOf = s.callOf) (writer : next.writer = s.writer)
    (same : baseOf stack = baseOf s.process.stack)
    (acts : ActsOk s.process.currentThread stack)
    (nextOk : NextOk next.process stack) : next.Ok := by
  have stateOf (t : ThreadIndex) : next.process.stateOf t =
      if t = n then state else s.process.stateOf t := by
    rw [process]
    exact Process.stateOf_setState s.process n t state
  have notFree {t : ThreadIndex} (free : next.process.stateOf t = .free) :
      t ≠ n ∧ s.process.stateOf t = .free := by
    rw [stateOf] at free
    split at free
    · exact absurd free marked
    · exact ⟨‹_›, free⟩
  have current : next.process.currentThread = s.process.currentThread := by
    rw [process]
    rfl
  have stackEq : next.process.stack = stack := by
    rw [process]
    rfl
  have sp (t : ThreadIndex) :
      (next.process.allThread t).sp = (s.process.allThread t).sp := by
    rw [process]
    exact Process.sp_setState s.process n t state
  have creating (u : ThreadIndex) :
      next.process.creating u = s.process.creating u := by
    by_cases isCurrent : s.process.currentThread = some u
    · rw [creating_of_current isCurrent,
        creating_of_current (current.trans isCurrent), stackEq,
        creation_congr same]
    · have suspended : next.process.currentThread ≠ some u :=
        current ▸ isCurrent
      rw [creating_of_suspended isCurrent, creating_of_suspended suspended, sp]
  constructor
  case acts => rwa [current, stackEq]
  case base =>
    rw [current, stackEq, same, writer]
    simpa only [sp] using ok.base
  case next => rwa [stackEq]
  case occupied =>
    intro u isCurrent inUse free
    rw [stackEq, occupied_congr same] at inUse
    exact ok.occupied u (current ▸ isCurrent) inUse (notFree free).2
  case suspended =>
    intro u saved notCurrent savedEq
    rw [sp] at savedEq
    obtain ⟨actsOk, shape, free⟩ :=
      ok.suspended u saved (current ▸ notCurrent) savedEq
    exact ⟨actsOk, shape, fun isFree => free (notFree isFree).2⟩
  case creating =>
    intro u pc t isCreating
    rw [creating] at isCreating
    obtain ⟨v, sameSlot, free, notCurrent, writerEq⟩ :=
      ok.creating u pc t isCreating
    have other : v ≠ n := by
      rintro rfl
      exact unchosen (initialising_iff.mpr ⟨u, pc, sameSlot ▸ isCreating⟩)
    refine ⟨v, sameSlot, ?_, current ▸ notCurrent, ?_⟩
    · rw [stateOf, if_neg other, free]
    · rw [writer, callOf, writerEq]
  case unique =>
    intro u v pc pc' t first second
    rw [creating] at first second
    exact ok.unique u v pc pc' t first second
  case settled =>
    intro t free notChosen
    rw [writer]
    refine ok.settled t (notFree free).2 fun chosen => notChosen ?_
    simpa only [Initialising, creating] using chosen

/-! ## Switching -/

theorem threadSwitch_sp {p next : Process} {caller : List Frame}
    {c : ThreadIndex} (current : p.currentThread = some c)
    (switched : threadSwitch p caller = some next) (t : ThreadIndex) :
    (next.allThread t).sp =
      if t = c then some caller else (p.allThread t).sp := by
  unfold threadSwitch at switched
  rw [current] at switched
  cases nextEq : p.nextThread with
  | none => simp [nextEq] at switched
  | some n =>
      simp only [nextEq] at switched
      split at switched
      · cases switched
        exact Process.sp_setSp p c t (some caller)
      · cases switched

/-- Switching carries every unfinished call over. -/
theorem creating_threadSwitch {p next : Process} {caller : List Frame}
    (same : creation caller = creation p.stack)
    (switched : threadSwitch p caller = some next) (u : ThreadIndex) :
    next.creating u = p.creating u := by
  obtain ⟨c, n, current, _, current', _, _, _, resumed⟩ :=
    threadSwitch_eq_some switched
  rw [Process.sp_setSp] at resumed
  by_cases isNext : u = n
  · subst isNext
    rw [creating_of_current current']
    split at resumed
    · rename_i isCurrent
      cases resumed
      rw [creating_of_current (isCurrent ▸ current), same]
    · rename_i other
      have suspended : p.currentThread ≠ some u := fun isCurrent =>
        other (Option.some.inj (isCurrent.symm.trans current))
      rw [creating_of_suspended suspended, resumed, Option.bind_some]
  · have suspended : next.currentThread ≠ some u := fun isCurrent =>
      isNext (Option.some.inj (isCurrent.symm.trans current'))
    rw [creating_of_suspended suspended, threadSwitch_sp current switched]
    split
    · rename_i isCurrent
      rw [creating_of_current (isCurrent ▸ current), Option.bind_some, same]
    · rename_i other
      have before : p.currentThread ≠ some u := fun isCurrent =>
        other (Option.some.inj (isCurrent.symm.trans current))
      rw [creating_of_suspended before]

theorem creation_eq_none_of_not_occupied {stack : List Frame}
    (vacant : ¬ Occupied stack) : creation stack = none := by
  unfold Occupied at vacant
  unfold creation
  split at vacant <;> simp_all

/-- `thread_switch` keeps the invariant. -/
theorem Ok.of_switch {s next : CreationRun} (ok : s.Ok) {l : ScheduleLocals}
    {rest : List Frame} (top : s.process.stack = .threadSchedule .switch l :: rest)
    (switched : threadSwitch s.process (.threadSchedule .finish l :: rest) =
      some next.process)
    (callOf : next.callOf = s.callOf) (writer : next.writer = s.writer) :
    next.Ok := by
  obtain ⟨c, n, current, nextEq, current', nextEq', stateOf, _, resumed⟩ :=
    threadSwitch_eq_some switched
  have sp := threadSwitch_sp current switched
  have sameBase : baseOf (.threadSchedule .finish l :: rest) =
      baseOf s.process.stack := by
    rw [top]
    rfl
  have creating := creating_threadSwitch (creation_congr sameBase) switched
  have acts := ok.acts
  have handing := ok.next
  rw [top] at acts handing
  have savedActs : ActsOk (some c) (.threadSchedule .finish l :: rest) :=
    ⟨fun _ => (acts.1 (by decide)).trans current, current ▸ acts.2⟩
  have running : n = c ∨ s.process.stateOf n = .running := by
    rcases handing with same | ⟨m, isNext, isRunning⟩
    · rw [nextEq, current] at same
      exact .inl (Option.some.inj same)
    · rw [nextEq] at isNext
      exact .inr (Option.some.inj isNext ▸ isRunning)
  -- While `thread_init` runs no other thread has a context to resume.
  have initSelf (init : InitShape s.process.currentThread
      (baseOf s.process.stack) ∧ (∀ u, s.process.currentThread ≠ some u →
        (s.process.allThread u).sp = none) ∧ ∀ t, s.writer t = none) :
      n = c := by
    by_contra other
    rw [Process.sp_setSp, if_neg other, init.2.1 n (by simp [current, Ne.symm other])]
      at resumed
    cases resumed
  have suspendedNext (other : n ≠ c) :
      SuspendedOk s.process n next.process.stack := by
    rw [Process.sp_setSp, if_neg other] at resumed
    exact ok.suspended n _ (by simp [current, Ne.symm other]) resumed
  have resumedSelf (self : n = c) :
      next.process.stack = .threadSchedule .finish l :: rest := by
    rw [Process.sp_setSp, if_pos self] at resumed
    exact (Option.some.inj resumed).symm
  constructor
  case acts =>
    rw [current']
    by_cases self : n = c
    · rw [resumedSelf self, self]
      exact savedActs
    · exact (suspendedNext self).acts
  case base =>
    rw [current', writer]
    by_cases self : n = c
    · rw [resumedSelf self, sameBase, self, ← current]
      refine ok.base.imp_right fun ⟨shape, others, unset⟩ =>
        ⟨shape, fun u other => ?_, unset⟩
      rw [sp, if_neg (by rintro rfl; exact other current), others u other]
    · exact .inl ⟨(suspendedNext self).base, by simp⟩
  case next => exact nextOk_of_eq (by rw [nextEq', nextEq, current']) _
  case occupied =>
    intro u isCurrent inUse
    rw [current'] at isCurrent
    cases isCurrent
    rw [stateOf]
    rcases running with self | isRunning
    · rw [resumedSelf self, occupied_congr sameBase] at inUse
      exact ok.occupied n (self ▸ current) inUse
    · rw [isRunning]
      decide
  case suspended =>
    intro u saved notCurrent savedEq
    rw [sp] at savedEq
    rw [current'] at notCurrent
    split at savedEq
    · rename_i isCaller
      cases savedEq
      subst isCaller
      refine ⟨savedActs, ?_, fun free => ?_⟩
      · rw [sameBase]
        refine (ok.base.resolve_right fun init => ?_).1
        exact notCurrent (congrArg some (initSelf init))
      · rw [stateOf] at free
        rw [creation_congr sameBase]
        exact creation_eq_none_of_not_occupied fun inUse =>
          ok.occupied u current inUse free
    · rename_i other
      have before : s.process.currentThread ≠ some u := by
        rw [current]
        exact fun same => other (Option.some.inj same).symm
      obtain ⟨actsOk, shape, free⟩ := ok.suspended u saved before savedEq
      exact ⟨actsOk, shape, fun isFree => free (stateOf u ▸ isFree)⟩
  case creating =>
    intro u pc t isCreating
    rw [creating] at isCreating
    obtain ⟨v, sameSlot, free, notCurrent, writerEq⟩ :=
      ok.creating u pc t isCreating
    refine ⟨v, sameSlot, (stateOf v).trans free, ?_, ?_⟩
    · rw [current']
      rintro isNext
      cases isNext
      rcases running with self | isRunning
      · exact notCurrent (self ▸ current)
      · rw [free] at isRunning
        cases isRunning
    · rw [writer, callOf, writerEq]
  case unique =>
    intro u v pc pc' t first second
    rw [creating] at first second
    exact ok.unique u v pc pc' t first second
  case settled =>
    intro t free notChosen
    rw [writer]
    refine ok.settled t (stateOf t ▸ free) fun chosen => notChosen ?_
    simpa only [Initialising, creating] using chosen

/-! ## Statements of the library -/

/-- A statement of `thread_schedule` keeps the invariant. -/
theorem Ok.threadScheduleStep {s : CreationRun} (ok : s.Ok) {next : Process}
    {pc : SchedulePc} {l : ScheduleLocals} {rest : List Frame}
    (top : s.process.stack = .threadSchedule pc l :: rest)
    (separate : s.Separate .statement) (calls : Nat)
    (stepped : threadScheduleStep s.process rest l pc = some next) :
    (CreationRun.mk next calls s.callOf s.writer).Ok := by
  have acts := ok.acts
  have nextOk := ok.next
  rw [top] at acts nextOk
  have quiet {q : Process} (table : q.allThread = s.process.allThread)
      (current : q.currentThread = s.process.currentThread)
      (same : baseOf q.stack = baseOf s.process.stack)
      (acts : ActsOk s.process.currentThread q.stack)
      (nextOk : NextOk q q.stack) :
      (CreationRun.mk q calls s.callOf s.writer).Ok :=
    ok.of_quiet ⟨table, current, rfl, fun _ => .inl rfl, creation_congr same⟩
      acts (same ▸ ok.base) nextOk (occupied_congr same).mp
  have stays {pc' : SchedulePc} {l' : ScheduleLocals}
      (saved : pc' ≠ .save → l'.currentSave = s.process.currentThread)
      (nextOk : NextOk s.process (.threadSchedule pc' l' :: rest)) :
      (CreationRun.mk (s.process.setStack (.threadSchedule pc' l' :: rest))
        calls s.callOf s.writer).Ok := by
    refine quiet rfl rfl ?_ ⟨saved, acts.2⟩ ?_
    · rw [top]
      rfl
    · exact nextOk_congr s.process
        (s.process.setStack (.threadSchedule pc' l' :: rest)) rfl rfl
        (fun _ => rfl) nextOk
  have ends : (CreationRun.mk { s.process with exited := true } calls s.callOf
      s.writer).Ok :=
    quiet rfl rfl rfl ok.acts
      (nextOk_congr s.process { s.process with exited := true } rfl rfl
        (fun _ => rfl) ok.next)
  cases pc with
  | save =>
      cases stepped
      exact stays (fun _ => rfl) nextOk
  | scan =>
      simp only [Uthread.threadScheduleStep] at stepped
      split at stepped <;> cases stepped
      all_goals exact stays (fun _ => acts.1 (by decide)) nextOk
  | compare =>
      simp only [Uthread.threadScheduleStep] at stepped
      split at stepped
      · split at stepped <;> cases stepped
        all_goals exact stays (fun _ => acts.1 (by decide)) nextOk
      · cases stepped
  | take =>
      simp only [Uthread.threadScheduleStep] at stepped
      split at stepped <;> cases stepped
      exact stays (fun _ => acts.1 (by decide)) nextOk
  | choose =>
      simp only [Uthread.threadScheduleStep] at stepped
      split at stepped <;> cases stepped
      · exact stays (fun _ => acts.1 (by decide)) trivial
      · exact stays (fun _ => acts.1 (by decide)) nextOk
  | setNext =>
      cases stepped
      refine quiet rfl rfl ?_ ⟨fun _ => acts.1 (by decide), acts.2⟩ trivial
      rw [top]
      rfl
  | markNext =>
      simp only [Uthread.threadScheduleStep] at stepped
      split at stepped
      · rename_i n nextEq
        cases stepped
        have unchosen : ¬ Initialising s.process n := by
          simp only [Separate, top] at separate
          exact separate n nextEq
        refine ok.of_mark (by decide) unchosen rfl rfl rfl
          (by rw [top]; rfl) ⟨fun _ => acts.1 (by decide), acts.2⟩ ?_
        refine .inr ⟨n, nextEq, ?_⟩
        exact (Process.stateOf_setState s.process n n .running).trans (if_pos rfl)
      · cases stepped
  | testCurrent =>
      simp only [Uthread.threadScheduleStep] at stepped
      repeat' split at stepped
      all_goals cases stepped
      all_goals exact stays (fun _ => acts.1 (by decide)) nextOk
  | markCurrent =>
      simp only [Uthread.threadScheduleStep] at stepped
      split at stepped
      · rename_i c currentSave
        cases stepped
        have isCurrent : s.process.currentThread = some c :=
          (acts.1 (by decide)).symm.trans currentSave
        refine ok.of_mark (by decide) (ok.notInitialising_current isCurrent)
          rfl rfl rfl (by rw [top]; rfl) ⟨fun _ => acts.1 (by decide), acts.2⟩ ?_
        rcases nextOk with same | ⟨n, nextEq, running⟩
        · exact .inl same
        · by_cases self : n = c
          · exact .inl (nextEq.trans (self ▸ isCurrent.symm))
          · refine .inr ⟨n, nextEq, ?_⟩
            exact (Process.stateOf_setState s.process c n .runnable).trans
              ((if_neg self).trans running)
      · cases stepped
  | switch => exact ok.of_switch top stepped rfl rfl
  | noSwitch =>
      simp only [Uthread.threadScheduleStep] at stepped
      repeat' split at stepped
      all_goals cases stepped
      · exact ends
      · exact stays (fun _ => acts.1 (by decide)) nextOk
      · exact ends
  | finish =>
      cases stepped
      refine quiet rfl rfl ?_ acts.2 ?_
      · rw [top]
        rfl
      · refine nextOk_congr s.process (s.process.setStack rest) rfl rfl
          (fun _ => rfl) ?_
        exact nextOk

theorem eq_user_of_baseShape {frame : Frame} {rest : List Frame}
    (shape : BaseShape (frame :: rest)) (call : frame ≠ .user) :
    rest = [.user] := by
  unfold BaseShape at shape
  split at shape <;> simp_all

/-- The call that a running `thread_create` belongs to. -/
theorem Ok.creator {s : CreationRun} (ok : s.Ok) {pc : CreatePc} {t : Nat}
    {rest : List Frame} (top : s.process.stack = .threadCreate pc t :: rest) :
    rest = [.user] ∧ ∃ c, s.process.currentThread = some c ∧
      s.process.stateOf c ≠ .free := by
  have base := ok.base
  simp only [top, baseOf] at base
  rcases base with ⟨shape, current⟩ | ⟨shape, _⟩
  · obtain ⟨c, current⟩ := Option.ne_none_iff_exists'.mp current
    refine ⟨?_, c, current, ok.occupied c current ?_⟩
    · exact eq_user_of_baseShape shape (by simp)
    · simp [Occupied, top, baseOf]
  · simp [InitShape] at shape

/-- `thread_create` chooses a `FREE` slot that no other call has chosen. -/
theorem Ok.choose {s : CreationRun} (ok : s.Ok) {v : ThreadIndex}
    {rest : List Frame}
    (top : s.process.stack = .threadCreate .scan v.val :: rest)
    (free : s.process.stateOf v = .free)
    (unchosen : ¬ Initialising s.process v) (calls : Nat) :
    (CreationRun.mk (s.process.setStack (.threadCreate .setSp v.val :: rest))
      calls s.callOf s.writer).Ok := by
  obtain ⟨shape, c, current, inUse⟩ := ok.creator top
  have other : v ≠ c := by
    rintro rfl
    exact inUse free
  have creating (u : ThreadIndex) :
      (s.process.setStack (.threadCreate .setSp v.val :: rest)).creating u =
        if u = c then some (.setSp, v.val) else s.process.creating u := by
    split
    · rename_i isCurrent
      subst isCurrent
      exact creating_of_current current
    · rename_i isOther
      have suspended : s.process.currentThread ≠ some u := fun isCurrent =>
        isOther (Option.some.inj (isCurrent.symm.trans current))
      rw [creating_of_suspended suspended]
      exact creating_of_suspended suspended
  have idle : s.process.creating c = none := by
    rw [creating_of_current current, top]
    rfl
  constructor
  case acts => trivial
  case base =>
    left
    subst shape
    exact ⟨trivial, fun h => by simp [Process.setStack, current] at h⟩
  case next => trivial
  case occupied =>
    intro u isCurrent _
    cases isCurrent.symm.trans current
    exact inUse
  case suspended =>
    intro u stack notCurrent saved
    obtain ⟨actsOk, base, isFree⟩ := ok.suspended u stack notCurrent saved
    exact ⟨actsOk, base, isFree⟩
  case creating =>
    intro u pc t isCreating
    rw [creating] at isCreating
    split at isCreating
    · cases isCreating
      refine ⟨v, rfl, free, fun isCurrent => ?_, ok.settled v free unchosen⟩
      exact other (Option.some.inj (isCurrent.symm.trans current))
    · obtain ⟨w, same, isFree, notCurrent, writer⟩ :=
        ok.creating u pc t isCreating
      exact ⟨w, same, isFree, notCurrent, writer⟩
  case unique =>
    intro u w pc pc' t first second
    rw [creating] at first second
    split at first <;> split at second
    · simp_all
    · cases first
      exact absurd (initialising_iff.mpr ⟨w, pc', second⟩) unchosen
    · cases second
      exact absurd (initialising_iff.mpr ⟨u, pc, first⟩) unchosen
    · exact ok.unique u w pc pc' t first second
  case settled =>
    intro t isFree notChosen
    refine ok.settled t isFree fun chosen => notChosen ?_
    obtain ⟨u, pc, isCreating⟩ := initialising_iff.mp chosen
    refine initialising_iff.mpr ⟨u, pc, ?_⟩
    rw [creating, if_neg, isCreating]
    rintro rfl
    rw [idle] at isCreating
    cases isCreating

/-- `thread_create` sets its slot.  The slot's old context belonged to a thread
that has exited, so no unfinished call is lost with it. -/
theorem Ok.advance {s : CreationRun} (ok : s.Ok) {pc pc' : CreatePc}
    {v : ThreadIndex} {rest : List Frame} {sp : Option (List Frame)}
    (top : s.process.stack = .threadCreate pc v.val :: rest)
    (chosen : pc ≠ .scan) (later : pc' ≠ .scan ∧ pc' ≠ .setSp)
    (fresh : sp = (s.process.allThread v).sp ∨ sp = none ∨ sp = some [.user])
    (calls : Nat) :
    (CreationRun.mk ((s.process.setSp v sp).setStack
        (.threadCreate pc' v.val :: rest)) calls s.callOf
      fun u => if u = v then s.call else s.writer u).Ok := by
  obtain ⟨shape, c, current, inUse⟩ := ok.creator top
  have running : s.process.creating c = some (pc, v.val) := by
    rw [creating_of_current current, top]
    simp [creation, baseOf, chosen]
  obtain ⟨v', same, free, notCurrent, _⟩ := ok.creating c pc v.val running
  cases Fin.ext same
  have other : v ≠ c := fun same => notCurrent (same ▸ current)
  have stateOf (u : ThreadIndex) : ((s.process.setSp v sp).setStack
      (.threadCreate pc' v.val :: rest)).stateOf u = s.process.stateOf u :=
    Process.stateOf_setSp s.process v u sp
  have spOf (u : ThreadIndex) : (((s.process.setSp v sp).setStack
      (.threadCreate pc' v.val :: rest)).allThread u).sp =
        if u = v then sp else (s.process.allThread u).sp :=
    Process.sp_setSp s.process v u sp
  have vacant (stack : List Frame) (saved : sp = some stack) :
      SuspendedOk s.process v stack := by
    rcases fresh with kept | cleared | entry
    · exact ok.suspended v stack notCurrent (kept ▸ saved)
    · rw [cleared] at saved
      cases saved
    · rw [entry] at saved
      cases saved
      exact ⟨trivial, trivial, fun _ => rfl⟩
  have creating (u : ThreadIndex) : ((s.process.setSp v sp).setStack
      (.threadCreate pc' v.val :: rest)).creating u =
        if u = c then some (pc', v.val) else s.process.creating u := by
    split
    · rename_i isCurrent
      subst isCurrent
      rw [creating_of_current (p := (s.process.setSp v sp).setStack _) current]
      simp [creation, baseOf, Process.setStack, later.1]
    · rename_i isOther
      have suspended : s.process.currentThread ≠ some u := fun isCurrent =>
        isOther (Option.some.inj (isCurrent.symm.trans current))
      rw [creating_of_suspended suspended,
        creating_of_suspended (p := (s.process.setSp v sp).setStack _) suspended,
        spOf]
      split
      · rename_i isSlot
        subst isSlot
        cases saved : (s.process.allThread u).sp with
        | none =>
            cases entry : sp with
            | none => rfl
            | some stack => exact (vacant stack entry).free free
        | some stack =>
            have gone := (ok.suspended u stack suspended saved).free free
            cases entry : sp with
            | none => exact gone.symm
            | some stack' =>
                exact ((vacant stack' entry).free free).trans gone.symm
      · rfl
  constructor
  case acts => trivial
  case base =>
    left
    subst shape
    exact ⟨trivial, fun none => by cases none.symm.trans current⟩
  case next => trivial
  case occupied =>
    intro u isCurrent _
    cases isCurrent.symm.trans current
    exact (stateOf c).symm ▸ inUse
  case suspended =>
    intro u stack suspended saved
    rw [spOf] at saved
    split at saved
    · rename_i isSlot
      subst isSlot
      obtain ⟨actsOk, base, isFree⟩ := vacant stack saved
      exact ⟨actsOk, base, fun h => isFree (stateOf u ▸ h)⟩
    · obtain ⟨actsOk, base, isFree⟩ := ok.suspended u stack suspended saved
      exact ⟨actsOk, base, fun h => isFree (stateOf u ▸ h)⟩
  case creating =>
    intro u pc'' t isCreating
    rw [creating] at isCreating
    split at isCreating
    · rename_i isCurrent
      subst isCurrent
      cases isCreating
      refine ⟨v, rfl, (stateOf v).trans free, notCurrent, ?_⟩
      simp [later.2, call, current]
    · rename_i isOther
      obtain ⟨w, sameSlot, isFree, notCurrent', writer⟩ :=
        ok.creating u pc'' t isCreating
      have otherSlot : w ≠ v := by
        rintro rfl
        exact isOther (ok.unique u c pc'' pc t isCreating (sameSlot ▸ running))
      exact ⟨w, sameSlot, (stateOf w).trans isFree, notCurrent',
        (if_neg otherSlot).trans writer⟩
  case unique =>
    intro u w first second t isFirst isSecond
    rw [creating] at isFirst isSecond
    split at isFirst <;> split at isSecond
    · simp_all
    · rename_i isCurrent _
      cases isFirst
      exact isCurrent.trans (ok.unique c w pc second v running isSecond)
    · rename_i isCurrent
      cases isSecond
      exact (ok.unique u c first pc v isFirst running).trans isCurrent.symm
    · exact ok.unique u w first second t isFirst isSecond
  case settled =>
    intro t isFree notChosen
    rw [stateOf] at isFree
    have otherSlot : t ≠ v := by
      rintro rfl
      exact notChosen (initialising_iff.mpr ⟨c, pc', by rw [creating, if_pos rfl]⟩)
    refine (if_neg otherSlot).trans (ok.settled t isFree fun isChosen => ?_)
    obtain ⟨u, pc'', isCreating⟩ := initialising_iff.mp isChosen
    refine notChosen (initialising_iff.mpr ⟨u, pc'', ?_⟩)
    rw [creating, if_neg, isCreating]
    rintro rfl
    rw [running, Option.some.injEq, Prod.mk.injEq] at isCreating
    exact otherSlot (Fin.ext isCreating.2.symm)

/-- `thread_create` marks its slot `RUNNABLE` and returns. -/
theorem Ok.complete {s : CreationRun} (ok : s.Ok) {v : ThreadIndex}
    {rest : List Frame}
    (top : s.process.stack = .threadCreate .setState v.val :: rest)
    (calls : Nat) :
    (CreationRun.mk ((s.process.setState v .runnable).setStack rest) calls
      s.callOf fun u => if u = v then s.call else s.writer u).Ok := by
  obtain ⟨shape, c, current, inUse⟩ := ok.creator top
  subst shape
  have running : s.process.creating c = some (.setState, v.val) := by
    rw [creating_of_current current, top]
    rfl
  obtain ⟨v', same, free, notCurrent, _⟩ := ok.creating c _ v.val running
  cases Fin.ext same
  have other : c ≠ v := fun same => notCurrent (same ▸ current)
  have stateOf (u : ThreadIndex) : ((s.process.setState v .runnable).setStack
      [.user]).stateOf u = if u = v then .runnable else s.process.stateOf u :=
    Process.stateOf_setState s.process v u .runnable
  have wasFree {u : ThreadIndex} (isFree : ((s.process.setState v
      .runnable).setStack [.user]).stateOf u = .free) :
      u ≠ v ∧ s.process.stateOf u = .free := by
    rw [stateOf] at isFree
    split at isFree
    · cases isFree
    · exact ⟨‹_›, isFree⟩
  have spOf (u : ThreadIndex) : (((s.process.setState v .runnable).setStack
      [.user]).allThread u).sp = (s.process.allThread u).sp :=
    Process.sp_setState s.process v u .runnable
  have creating (u : ThreadIndex) : ((s.process.setState v .runnable).setStack
      [.user]).creating u = if u = c then none else s.process.creating u := by
    split
    · rename_i isCurrent
      subst isCurrent
      exact creating_of_current current
    · rename_i isOther
      have suspended : s.process.currentThread ≠ some u := fun isCurrent =>
        isOther (Option.some.inj (isCurrent.symm.trans current))
      rw [creating_of_suspended suspended, creating_of_suspended
        (p := (s.process.setState v .runnable).setStack [.user]) suspended, spOf]
  constructor
  case acts => trivial
  case base => exact .inl ⟨trivial, fun none => by cases none.symm.trans current⟩
  case next => trivial
  case occupied =>
    intro u isCurrent _
    cases isCurrent.symm.trans current
    exact fun isFree => inUse (wasFree isFree).2
  case suspended =>
    intro u stack suspended saved
    rw [spOf] at saved
    obtain ⟨actsOk, base, isFree⟩ := ok.suspended u stack suspended saved
    exact ⟨actsOk, base, fun h => isFree (wasFree h).2⟩
  case creating =>
    intro u pc t isCreating
    rw [creating] at isCreating
    split at isCreating
    · cases isCreating
    · rename_i isOther
      obtain ⟨w, sameSlot, isFree, notCurrent', writer⟩ :=
        ok.creating u pc t isCreating
      have otherSlot : w ≠ v := by
        rintro rfl
        exact isOther (ok.unique u c pc _ t isCreating (sameSlot ▸ running))
      exact ⟨w, sameSlot, (stateOf w).trans ((if_neg otherSlot).trans isFree),
        notCurrent', (if_neg otherSlot).trans writer⟩
  case unique =>
    intro u w first second t isFirst isSecond
    rw [creating] at isFirst isSecond
    split at isFirst
    · cases isFirst
    · split at isSecond
      · cases isSecond
      · exact ok.unique u w first second t isFirst isSecond
  case settled =>
    intro t isFree notChosen
    obtain ⟨otherSlot, isFree⟩ := wasFree isFree
    refine (if_neg otherSlot).trans (ok.settled t isFree fun isChosen => ?_)
    obtain ⟨u, pc, isCreating⟩ := initialising_iff.mp isChosen
    refine notChosen (initialising_iff.mpr ⟨u, pc, ?_⟩)
    rw [creating, if_neg, isCreating]
    rintro rfl
    rw [running, Option.some.injEq, Prod.mk.injEq] at isCreating
    exact otherSlot (Fin.ext isCreating.2.symm)

/-- `thread_exit` frees the slot of the current thread. -/
theorem Ok.setFree {s : CreationRun} (ok : s.Ok) {rest : List Frame}
    {c : ThreadIndex} (current : s.process.currentThread = some c)
    (top : s.process.stack = .threadExit .setFree :: rest) (calls : Nat) :
    (CreationRun.mk ((s.process.setState c .free).setStack
        (.threadExit .callSchedule :: rest)) calls s.callOf
      fun u => if s.process.currentThread = some u then none
        else s.writer u).Ok := by
  have unchosen := ok.notInitialising_current current
  have base := ok.base
  simp only [top, baseOf, InitShape, false_and, or_false] at base
  have shape : rest = [.user] := eq_user_of_baseShape base.1 (by simp)
  have isOther {u : ThreadIndex} (suspended : s.process.currentThread ≠ some u) :
      u ≠ c := by
    rintro rfl
    exact suspended current
  have stateOf (u : ThreadIndex) (other : u ≠ c) :
      ((s.process.setState c .free).setStack
        (.threadExit .callSchedule :: rest)).stateOf u = s.process.stateOf u :=
    (Process.stateOf_setState s.process c u .free).trans (if_neg other)
  have spOf (u : ThreadIndex) : (((s.process.setState c .free).setStack
      (.threadExit .callSchedule :: rest)).allThread u).sp =
        (s.process.allThread u).sp :=
    Process.sp_setState s.process c u .free
  have creating (u : ThreadIndex) : ((s.process.setState c .free).setStack
      (.threadExit .callSchedule :: rest)).creating u = s.process.creating u := by
    by_cases isCurrent : s.process.currentThread = some u
    · rw [creating_of_current isCurrent, top]
      exact creating_of_current isCurrent
    · rw [creating_of_suspended isCurrent, creating_of_suspended
        (p := (s.process.setState c .free).setStack _) isCurrent, spOf]
  constructor
  case acts => trivial
  case base =>
    subst shape
    exact .inl ⟨trivial, base.2⟩
  case next => trivial
  case occupied =>
    intro u _ inUse
    cases inUse
  case suspended =>
    intro u stack suspended saved
    rw [spOf] at saved
    obtain ⟨actsOk, base, isFree⟩ := ok.suspended u stack suspended saved
    exact ⟨actsOk, base, fun h => isFree (stateOf u (isOther suspended) ▸ h)⟩
  case creating =>
    intro u pc t isCreating
    rw [creating] at isCreating
    obtain ⟨w, sameSlot, isFree, notCurrent, writer⟩ :=
      ok.creating u pc t isCreating
    exact ⟨w, sameSlot, (stateOf w (isOther notCurrent)).trans isFree,
      notCurrent, (if_neg notCurrent).trans writer⟩
  case unique =>
    intro u w first second t isFirst isSecond
    rw [creating] at isFirst isSecond
    exact ok.unique u w first second t isFirst isSecond
  case settled =>
    intro t isFree notChosen
    by_cases isCurrent : s.process.currentThread = some t
    · exact if_pos isCurrent
    · rw [stateOf t (isOther isCurrent)] at isFree
      refine (if_neg isCurrent).trans (ok.settled t isFree fun isChosen => ?_)
      exact notChosen (by simpa only [Initialising, creating] using isChosen)

/-- A statement of `thread_create` keeps the invariant. -/
theorem Ok.threadCreateStep {s : CreationRun} (ok : s.Ok) {next : Process}
    {pc : CreatePc} {t : Nat} {rest : List Frame}
    (top : s.process.stack = .threadCreate pc t :: rest)
    (separate : s.Separate .statement) (calls : Nat)
    (stepped : threadCreateStep s.process rest t pc = some next) :
    (CreationRun.mk next calls s.callOf (s.writerAfter .statement)).Ok := by
  obtain ⟨shape, c, current, inUse⟩ := ok.creator top
  have keeps (scanning : pc = .scan) :
      s.writerAfter .statement = s.writer := by
    funext u
    simp [writerAfter, top, scanning]
  have sets (setting : pc ≠ .scan) (inTable : t < maxThread) :
      s.writerAfter .statement =
        fun u => if u = ⟨t, inTable⟩ then s.call else s.writer u := by
    funext u
    simp [writerAfter, top, setting, Fin.ext_iff]
  have quiet {stack : List Frame} (scanning : pc = .scan)
      (none : creation stack = none) (base : BaseShape (baseOf stack))
      (acts : ActsOk s.process.currentThread stack)
      (nextOk : NextOk (s.process.setStack stack) stack) :
      (CreationRun.mk (s.process.setStack stack) calls s.callOf s.writer).Ok := by
    subst scanning
    refine ok.of_quiet ⟨rfl, rfl, rfl, fun _ => .inl rfl, ?_⟩ acts
      (.inl ⟨base, by simp [current]⟩) nextOk fun _ => ?_
    · rw [top]
      exact none
    · simp [Occupied, top, baseOf]
  subst shape
  cases pc with
  | scan =>
      rw [keeps rfl]
      simp only [Uthread.threadCreateStep] at stepped
      split at stepped
      · rename_i inTable
        split at stepped <;> cases stepped
        · rename_i free
          simp only [Separate, top] at separate
          exact ok.choose (v := ⟨t, inTable⟩) top free
            (separate ⟨t, inTable⟩ rfl free) calls
        · exact quiet rfl rfl trivial trivial trivial
      · cases stepped
        exact quiet rfl rfl trivial trivial trivial
  | setSp | reserveEip | reserveRegs =>
      simp only [Uthread.threadCreateStep] at stepped
      split at stepped
      · rename_i inTable
        cases stepped
        rw [sets (by decide) inTable]
        exact ok.advance (v := ⟨t, inTable⟩) top (by decide) (by decide)
          (by simp) calls
      · cases stepped
  | storeFunc =>
      cases stepped
      have running : s.process.creating c = some (.storeFunc, t) := by
        rw [creating_of_current current, top]
        rfl
      obtain ⟨v, same, _⟩ := ok.creating c _ t running
      subst same
      rw [sets (by decide) v.isLt]
      have later : CreatePc.reserveRegs ≠ .scan ∧ CreatePc.reserveRegs ≠ .setSp :=
        by decide
      have kept := ok.advance top (by decide) later (.inl rfl) calls
      have unchanged : s.process.setSp v (s.process.allThread v).sp =
          s.process := by
        simp [Process.setSp]
      rwa [unchanged] at kept
  | setState =>
      simp only [Uthread.threadCreateStep] at stepped
      split at stepped
      · rename_i inTable
        cases stepped
        rw [sets (by decide) inTable]
        exact ok.complete (v := ⟨t, inTable⟩) top calls
      · cases stepped

/-- A statement of `thread_exit` keeps the invariant. -/
theorem Ok.threadExitStep {s : CreationRun} (ok : s.Ok) {next : Process}
    {pc : ExitPc} {rest : List Frame}
    (top : s.process.stack = .threadExit pc :: rest) (calls : Nat)
    (stepped : threadExitStep s.process rest pc = some next) :
    (CreationRun.mk next calls s.callOf (s.writerAfter .statement)).Ok := by
  have base := ok.base
  simp only [top, baseOf, InitShape, false_and, or_false] at base
  have shape : rest = [.user] := eq_user_of_baseShape base.1 (by simp)
  cases pc with
  | setFree =>
      simp only [Uthread.threadExitStep] at stepped
      split at stepped
      · rename_i c current
        cases stepped
        have writer : s.writerAfter .statement = fun u =>
            if s.process.currentThread = some u then none else s.writer u := by
          funext u
          simp [writerAfter, top]
        rw [writer]
        exact ok.setFree current top calls
      · cases stepped
  | callSchedule =>
      cases stepped
      have writer : s.writerAfter .statement = s.writer := by
        funext u
        simp [writerAfter, top]
      rw [writer]
      subst shape
      refine ok.of_quiet ⟨rfl, rfl, rfl, fun _ => .inl rfl, ?_⟩
        ⟨fun save => absurd rfl save, trivial⟩ (.inl ⟨trivial, base.2⟩) trivial ?_
      · rw [top]
        rfl
      · intro inUse
        cases inUse
  | afterSchedule =>
      cases stepped
      have writer : s.writerAfter .statement = s.writer := by
        funext u
        simp [writerAfter, top]
      rw [writer]
      exact ok.of_quiet ⟨rfl, rfl, rfl, fun _ => .inl rfl, rfl⟩ ok.acts ok.base
        (nextOk_congr s.process { s.process with exited := true } rfl rfl
          (fun _ => rfl) ok.next) id

/-- While `thread_init` runs, no thread is inside `thread_create`. -/
theorem Ok.of_init {next : CreationRun}
    (acts : ActsOk next.process.currentThread next.process.stack)
    (shape : (BaseShape (baseOf next.process.stack) ∧
        next.process.currentThread ≠ none) ∨
      InitShape next.process.currentThread (baseOf next.process.stack))
    (others : ∀ u, next.process.currentThread ≠ some u →
      (next.process.allThread u).sp = none)
    (unset : ∀ t, next.writer t = none)
    (nextOk : NextOk next.process next.process.stack)
    (occupied : ∀ u, next.process.currentThread = some u →
      Occupied next.process.stack → next.process.stateOf u ≠ .free)
    (idle : creation next.process.stack = none) : next.Ok := by
  have creating (u : ThreadIndex) : next.process.creating u = none := by
    by_cases current : next.process.currentThread = some u
    · rw [creating_of_current current, idle]
    · rw [creating_of_suspended current, others u current]
      rfl
  constructor
  case acts => exact acts
  case base => exact shape.imp_right fun init => ⟨init, others, unset⟩
  case next => exact nextOk
  case occupied => exact occupied
  case suspended =>
    intro u stack current saved
    rw [others u current] at saved
    cases saved
  case creating =>
    intro u pc t isCreating
    rw [creating] at isCreating
    cases isCreating
  case unique =>
    intro u v pc pc' t isCreating
    rw [creating] at isCreating
    cases isCreating
  case settled => exact fun t _ _ => unset t

/-- A statement of `thread_init` keeps the invariant. -/
theorem Ok.threadInitStep {s : CreationRun} (ok : s.Ok) {next : Process}
    {pc : InitPc} {rest : List Frame}
    (top : s.process.stack = .threadInit pc :: rest) (calls : Nat)
    (stepped : threadInitStep s.process rest pc = some next) :
    (CreationRun.mk next calls s.callOf s.writer).Ok := by
  have base := ok.base
  simp only [top, baseOf, BaseShape, false_and, false_or] at base
  obtain ⟨shape, others, unset⟩ := base
  have rests : rest = [.user] := by
    unfold InitShape at shape
    split at shape <;> simp_all
  subst rests
  cases pc with
  | register =>
      cases stepped
      exact .of_init trivial (.inr shape) others unset trivial
        (fun u current => by cases shape.symm.trans current) rfl
  | setCurrent =>
      cases stepped
      have none : s.process.currentThread = none := shape
      refine .of_init trivial (.inr rfl) (fun u _ => ?_) unset trivial
        (fun u _ inUse => ?_) rfl
      · exact others u (by simp [none])
      · obtain ⟨i, isClear⟩ := inUse
        cases isClear
  | setRunning =>
      simp only [Uthread.threadInitStep] at stepped
      split at stepped
      · rename_i c current
        cases stepped
        have isZero : s.process.currentThread = some 0 := shape
        refine .of_init trivial (.inr ⟨isZero, by decide⟩) (fun u other => ?_)
          unset trivial (fun u isCurrent _ => ?_) rfl
        · exact (Process.sp_setState s.process c u .running).trans
            (others u other)
        · have same : u = c := Option.some.inj (isCurrent.symm.trans current)
          have isRunning := Process.stateOf_setState s.process c u .running
          rw [if_pos same] at isRunning
          intro isFree
          cases isRunning.symm.trans isFree
      · cases stepped
  | clear i =>
      obtain ⟨current, positive⟩ := shape
      have inUse : s.process.stateOf 0 ≠ .free := by
        refine ok.occupied 0 current ?_
        rw [top]
        exact ⟨i, rfl⟩
      simp only [Uthread.threadInitStep] at stepped
      split at stepped <;> cases stepped
      · rename_i inTable
        refine .of_init trivial (.inr ⟨current, by omega⟩) (fun u other => ?_)
          unset trivial (fun u isCurrent _ => ?_) rfl
        · exact (Process.sp_setState s.process _ u .free).trans (others u other)
        · cases isCurrent.symm.trans current
          have isKept := Process.stateOf_setState s.process ⟨i, inTable⟩ 0 .free
          rw [if_neg (by simp [Fin.ext_iff]; omega)] at isKept
          exact isKept ▸ inUse
      · refine .of_init trivial (.inl ⟨trivial, ?_⟩) others unset trivial
          (fun u isCurrent _ => ?_) rfl
        · exact fun none => by cases none.symm.trans current
        · cases isCurrent.symm.trans current
          exact inUse

/-! ## Runs -/

theorem begin_ok : begin.Ok :=
  .of_init trivial (.inr rfl) (fun _ _ => rfl) (fun _ => rfl) trivial
    (fun u current => by cases current) rfl

theorem step_eq_some {s next : CreationRun} {label : Label}
    (stepped : s.step label = some next) :
    ∃ process, Uthread.step s.process label = some process ∧
      next = ⟨process, if label = .create then s.calls + 1 else s.calls,
        s.callAfter label, s.writerAfter label⟩ := by
  obtain ⟨process, stepped, same⟩ := Option.map_eq_some_iff.mp stepped
  exact ⟨process, stepped, same.symm⟩

/-- A step that is separate keeps the invariant. -/
theorem step_ok {s next : CreationRun} {label : Label} (ok : s.Ok)
    (separate : s.Separate label) (stepped : s.step label = some next) :
    next.Ok := by
  obtain ⟨process, moved, rfl⟩ := step_eq_some stepped
  have callEq (other : label ≠ .create) : s.callAfter label = s.callOf := by
    funext u
    simp [callAfter, other]
  have ofUser {rest : List Frame} (top : s.process.stack = .user :: rest) :
      rest = [] ∧ s.process.currentThread ≠ none ∧
        Occupied s.process.stack ∧ creation s.process.stack = none := by
    have base := ok.base
    simp only [top, baseOf, InitShape, false_and, or_false] at base
    refine ⟨?_, base.2, ?_, ?_⟩
    · have shape := base.1
      unfold BaseShape at shape
      split at shape <;> simp_all
    · simp [Occupied, top, baseOf]
    · simp [creation, top, baseOf]
  unfold Uthread.step at moved
  split at moved
  · cases moved
  · split at moved
    · split at moved <;> cases moved
      rw [callEq (by decide)]
      exact ok.of_quiet ⟨rfl, rfl, rfl, fun _ => .inl rfl, rfl⟩
        ⟨fun save => absurd rfl save, ok.acts⟩ ok.base
        (nextOk_congr s.process
          (s.process.setStack (.scheduleEntry :: s.process.stack)) rfl rfl
          (fun _ => rfl) ok.next) id
    · rename_i rest top
      cases moved
      rw [callEq (by decide)]
      have writer : s.writerAfter .statement = s.writer := by
        funext u
        simp [writerAfter, top]
      rw [writer]
      exact ok.of_quiet ⟨rfl, rfl, rfl, fun _ => .inl rfl, rfl⟩ ok.acts ok.base
        ok.next id
    · rename_i rest top
      cases moved
      obtain ⟨rfl, current, inUse, idle⟩ := ofUser top
      refine ok.of_quiet ⟨rfl, rfl, rfl, fun u => ?_, idle.symm⟩ trivial
        (.inl ⟨trivial, current⟩) trivial fun _ => inUse
      by_cases isCurrent : s.process.currentThread = some u
      · exact .inr ⟨isCurrent, idle⟩
      · exact .inl (by simp [callAfter, isCurrent])
    · rename_i rest top
      cases moved
      obtain ⟨rfl, current, inUse, idle⟩ := ofUser top
      rw [callEq (by decide)]
      exact ok.of_quiet ⟨rfl, rfl, rfl, fun _ => .inl rfl, idle.symm⟩
        ⟨fun save => absurd rfl save, trivial⟩ (.inl ⟨trivial, current⟩) trivial
        fun _ => inUse
    · rename_i rest top
      cases moved
      obtain ⟨rfl, current, inUse, idle⟩ := ofUser top
      rw [callEq (by decide)]
      exact ok.of_quiet ⟨rfl, rfl, rfl, fun _ => .inl rfl, idle.symm⟩ trivial
        (.inl ⟨trivial, current⟩) trivial fun _ => inUse
    · rename_i pc rest top
      rw [callEq (by decide)]
      have writer : s.writerAfter .statement = s.writer := by
        funext u
        simp [writerAfter, top]
      rw [writer]
      exact ok.threadInitStep top _ moved
    · rename_i pc t rest top
      rw [callEq (by decide)]
      exact ok.threadCreateStep top separate _ moved
    · rename_i pc rest top
      rw [callEq (by decide)]
      exact ok.threadExitStep top _ moved
    · rename_i pc l rest top
      rw [callEq (by decide)]
      have writer : s.writerAfter .statement = s.writer := by
        funext u
        simp [writerAfter, top]
      rw [writer]
      exact ok.threadScheduleStep top separate _ moved
    · cases moved

/-- The invariant gives every statement of `thread_create` a slot of its own. -/
theorem Ok.ownSlot {s : CreationRun} (ok : s.Ok) (label : Label) :
    s.OwnSlot label := by
  unfold OwnSlot
  split
  · rename_i pc t rest top
    by_cases scanning : pc = .scan
    · exact .inl scanning
    · obtain ⟨_, c, current, _⟩ := ok.creator top
      have running : s.process.creating c = some (pc, t) := by
        rw [creating_of_current current, top]
        simp [creation, baseOf, scanning]
      obtain ⟨v, same, free, _, writer⟩ := ok.creating c pc t running
      refine .inr ⟨v, same, free, ?_⟩
      rw [writer, call, current]
      rfl
  · trivial

/-- An uninterrupted `thread_schedule` marks a `RUNNABLE` thread, and a slot that an
unfinished call has chosen is `FREE`. -/
theorem Ok.separate {s : CreationRun} (ok : s.Ok) (scanned : ScannedOk s.process)
    {label : Label} (alone : s.Alone label) : s.Separate label := by
  unfold Separate
  split
  · rename_i t rest top
    have idle : ∀ u, s.process.creating u = none := by
      have alone := alone.2
      rwa [top] at alone
    intro v _ _ initialising
    obtain ⟨u, pc, creating⟩ := initialising_iff.mp initialising
    rw [idle u] at creating
    cases creating
  · rename_i l rest top
    intro n isNext initialising
    obtain ⟨u, pc, creating⟩ := initialising_iff.mp initialising
    obtain ⟨v, same, creatingOk⟩ := ok.creating u pc n.val creating
    have candidate := scanned.scan .markNext l rest top n isNext
    have free := creatingOk.free
    rw [Fin.ext same, candidate.1.1] at free
    cases free
  · trivial

theorem ownSlot_of_ok {s : CreationRun} {labels : List Label} (ok : s.Ok)
    (scanned : s.process.exited = true ∨ ScannedOk s.process)
    (alone : RunMeets step Alone s labels) : RunMeets step OwnSlot s labels := by
  induction labels generalizing s with
  | nil => trivial
  | cons label labels ih =>
      refine ⟨ok.ownSlot label, fun next stepped => ?_⟩
      obtain ⟨process, moved, same⟩ := step_eq_some stepped
      have live : ¬s.process.exited = true := by
        rw [not_exited_of_step moved]
        decide
      have scanned := scanned.resolve_left live
      have nextOk := step_ok ok (ok.separate scanned alone.1) stepped
      refine ih nextOk ?_ (alone.2 next stepped)
      subst same
      cases exited : process.exited with
      | true => exact .inl rfl
      | false => exact .inr (step_scannedOk scanned alone.1.1 moved exited)

/-- In every run without a tick inside `thread_schedule` in which no thread searches
for a slot while another one is initialising its own, every call of `thread_create`
sets a slot of its own.  Ticks may come between any two statements of
`thread_create`. -/
theorem ownSlot_of_alone {labels : List Label}
    (alone : RunMeets step Alone begin labels) :
    RunMeets step OwnSlot begin labels :=
  ownSlot_of_ok begin_ok (.inr start_scannedOk) alone

/-- The statements that follow without a tick or a call. -/
def statements (count : Nat) : List Label := List.replicate count .statement

/-- Thread 0 has created thread 1, and a tick is taken just after its second
call of `thread_create` has found slot 2.  Thread 1 creates a thread in slot 2
and gives control back. -/
def sharedSlot : List Label :=
  [statements 7, [.create], statements 7, [.create], statements 3, [.tick],
    statements 12, [.create], statements 8, [.schedule],
    statements 12].flatten

/-- Thread 0 then builds its frame in slot 2, which is `RUNNABLE` by now. -/
theorem sharedSlot_not_ownSlot :
    (∃ last, run step begin sharedSlot = some last) ∧
      ¬ RunMeets step OwnSlot begin sharedSlot := by
  refine ⟨Option.isSome_iff_exists.mp ?_, ?_⟩ <;> decide +kernel

/-- Thread 0 has created thread 1; a tick inside its second call of
`thread_create` lets thread 1 run, which yields without creating a thread. -/
def tickInCreate : List Label :=
  [statements 7, [.create], statements 7, [.create], statements 5, [.tick],
    statements 12, [.schedule], statements 14].flatten

theorem tickInCreate_ownSlot :
    (∃ last, run step begin tickInCreate = some last ∧
      last.process.stateOf 2 = .runnable) ∧
      RunMeets step OwnSlot begin tickInCreate := by
  refine ⟨?_, ownSlot_of_alone (by decide +kernel)⟩
  have ran : ((run step begin tickInCreate).any fun last =>
      last.process.stateOf 2 = .runnable) = true := by decide +kernel
  obtain ⟨last, reached, runnable⟩ := (Option.any_eq_true _ _).mp ran
  exact ⟨last, reached, by simpa using runnable⟩

end CreationRun

end Xv6.Uthread
