import Xv6.UthreadModel

/-!
# The thread table under preemption

A tick taken inside `thread_schedule` starts a second activation of it between
the separate stores to `next->state`, `current->state`, `next_thread` and
`current_thread`; a thread can then stay marked `RUNNING` while another one
runs.  When no tick is taken there, the table invariant holds at every
statement outside the scheduler, except where the code itself has unmarked the
running thread: inside `thread_exit` and before `thread_init` has marked
thread 0.
-/

namespace Xv6.Uthread

open LabelledRuns

/-- The activation below the scheduler: thread code, possibly inside one
library call made from it. -/
def baseFrame : List Frame → Option Frame
  | [.user] => some .user
  | [.threadSchedule _ _, .user] => none
  | [.user, .user] => none
  | [frame, .user] => some frame
  | _ => none

def NotInit (frame : Frame) : Prop := ∀ pc, frame ≠ .threadInit pc

/-- A `thread_create` that has chosen its slot did not choose the slot of the
thread that executes it. -/
def OwnerOk (owner : ThreadIndex) : Frame → Prop
  | .threadCreate pc t => pc ≠ .scan → t ≠ owner.val
  | _ => True

theorem maxThread_pos : 0 < maxThread := by decide

/-- The table at a statement outside the scheduler, or while the scheduler
called from there has not yet changed it. -/
def BaseOk (p : Process) : Frame → Prop
  | .user | .threadCreate _ _ => OneRunning p
  | .threadExit .setFree => OneRunning p
  | .threadExit .callSchedule | .threadExit .afterSchedule =>
      OneRunning p ∨ (Unmarked p ∧ p.currentThread ≠ none)
  | .threadInit .register | .threadInit .setCurrent =>
      p.currentThread = none ∧ ∀ t, p.stateOf t = .free
  | .threadInit .setRunning =>
      p.currentThread = some ⟨0, maxThread_pos⟩ ∧ ∀ t, p.stateOf t = .free
  | .threadInit (.clear i) => 0 < i ∧ OneRunning p ∧
      p.currentThread = some ⟨0, maxThread_pos⟩ ∧
      ∀ t, p.currentThread ≠ some t → p.stateOf t = .free
  | .threadSchedule _ _ => False

/-- The chosen thread is `RUNNABLE` and is not the caller. -/
def Candidate (p : Process) (next : ThreadIndex) : Prop :=
  p.stateOf next = .runnable ∧ some next ≠ p.currentThread

/-- The table while `thread_schedule` hands over to `next`. -/
structure HandingOver (p : Process) (frame : Frame) (next : ThreadIndex)
    (current : ThreadIndex) : Prop where
  notInit : NotInit frame
  nextEq : p.nextThread = some next
  currentEq : p.currentThread = some current
  distinct : next ≠ current
  marked : p.stateOf next = .running
  only : ∀ t, p.stateOf t = .running → t = next ∨ t = current

/-- What holds at each statement of an uninterrupted `thread_schedule` called
from `frame`. -/
def ScheduleOk (p : Process) (l : ScheduleLocals) (frame : Frame) :
    SchedulePc → Prop
  | .save => BaseOk p frame
  | .scan | .compare =>
      BaseOk p frame ∧ l.currentSave = p.currentThread ∧ l.foundNext = none
  | .take => BaseOk p frame ∧ l.currentSave = p.currentThread ∧
      ∀ inTable : l.i < maxThread, Candidate p ⟨l.i, inTable⟩
  | .choose => BaseOk p frame ∧ l.currentSave = p.currentThread ∧
      ∀ next, l.foundNext = some next → Candidate p next
  | .setNext => BaseOk p frame ∧ l.currentSave = p.currentThread ∧
      ∃ next, l.foundNext = some next ∧ Candidate p next
  | .markNext => BaseOk p frame ∧ l.currentSave = p.currentThread ∧
      ∃ next, p.nextThread = some next ∧ Candidate p next
  | .testCurrent | .markCurrent => l.currentSave = p.currentThread ∧
      ∃ next current, HandingOver p frame next current
  | .switch => ∃ next current, HandingOver p frame next current ∧
      p.stateOf current ≠ .running
  | .noSwitch => BaseOk p frame ∧ l.currentSave = p.currentThread
  | .finish => OneRunning p ∧ BaseOk p frame

/-- A saved context resumes at the end of `thread_schedule`, or at the start
of a thread function. -/
def SavedOk (owner : ThreadIndex) (saved : List Frame) : Prop :=
  ∃ frame, NotInit frame ∧ OwnerOk owner frame ∧
    (baseFrame saved = some frame ∨
      ∃ l rest, saved = .threadSchedule .finish l :: rest ∧
        baseFrame rest = some frame)

/-- The running activations, described from the innermost one. -/
inductive LiveOk (p : Process) : List Frame → Prop where
  | base {stack : List Frame} {frame : Frame}
      (shape : baseFrame stack = some frame) (table : BaseOk p frame)
      (returned : frame = .threadExit .afterSchedule → OneRunning p)
      (owner : ∀ c, p.currentThread = some c → OwnerOk c frame) :
      LiveOk p stack
  | schedule {pc : SchedulePc} {l : ScheduleLocals} {rest : List Frame}
      {frame : Frame}
      (shape : baseFrame rest = some frame) (table : ScheduleOk p l frame pc)
      (owner : ∀ c, p.currentThread = some c → OwnerOk c frame) :
      LiveOk p (.threadSchedule pc l :: rest)

/-- The invariant of runs without a tick inside the scheduler. -/
structure TableOk (p : Process) : Prop where
  saved : ∀ t frames, (p.allThread t).sp = some frames → SavedOk t frames
  live : LiveOk p p.stack

theorem baseOk_cases {p : Process} {frame : Frame} (table : BaseOk p frame) :
    OneRunning p ∨ Unmarked p := by
  cases frame with
  | user => exact .inl table
  | threadCreate pc t => exact .inl table
  | threadExit pc =>
      cases pc with
      | setFree => exact .inl table
      | callSchedule => exact table.imp_right And.left
      | afterSchedule => exact table.imp_right And.left
  | threadInit pc =>
      cases pc with
      | clear i => exact .inl table.2.1
      | register => exact .inr ⟨fun t => by simp [table.2 t],
          fun t _ => table.2 t⟩
      | setCurrent => exact .inr ⟨fun t => by simp [table.2 t],
          fun t _ => table.2 t⟩
      | setRunning => exact .inr ⟨fun t => by simp [table.2 t],
          fun t _ => table.2 t⟩
  | threadSchedule pc l => exact table.elim

/-- Under `thread_init` no other thread exists, so nothing can be chosen. -/
theorem notInit_of_candidate {p : Process} {frame : Frame}
    {next : ThreadIndex} (table : BaseOk p frame)
    (candidate : Candidate p next) : NotInit frame := by
  rintro pc rfl
  obtain ⟨runnable, other⟩ := candidate
  cases pc with
  | register => simp [table.2 next] at runnable
  | setCurrent => simp [table.2 next] at runnable
  | setRunning => simp [table.2 next] at runnable
  | clear i => simp [table.2.2.2 next (Ne.symm other)] at runnable

theorem currentThread_of_candidate {p : Process} {frame : Frame}
    {next : ThreadIndex} (table : BaseOk p frame)
    (candidate : Candidate p next) :
    ∃ current, p.currentThread = some current := by
  have notInit := notInit_of_candidate table candidate
  cases frame with
  | user => exact table.imp fun _ => And.left
  | threadCreate pc t => exact table.imp fun _ => And.left
  | threadExit pc =>
      have live (ok : OneRunning p ∨ (Unmarked p ∧ p.currentThread ≠ none)) :
          ∃ current, p.currentThread = some current := by
        rcases ok with one | unmarked
        · exact one.imp fun _ => And.left
        · exact Option.ne_none_iff_exists'.mp unmarked.2
      cases pc with
      | setFree => exact table.imp fun _ => And.left
      | callSchedule => exact live table
      | afterSchedule => exact live table
  | threadInit pc => exact (notInit pc rfl).elim
  | threadSchedule pc l => exact table.elim

theorem baseOk_of_oneRunning {p : Process} {frame : Frame}
    (one : OneRunning p) (notInit : NotInit frame)
    (notSchedule : ∀ pc l, frame ≠ .threadSchedule pc l) : BaseOk p frame := by
  cases frame with
  | user => exact one
  | threadCreate pc t => exact one
  | threadExit pc =>
      cases pc with
      | setFree => exact one
      | callSchedule => exact .inl one
      | afterSchedule => exact .inl one
  | threadInit pc => exact (notInit pc rfl).elim
  | threadSchedule pc l => exact (notSchedule pc l rfl).elim

/-- A library call other than `thread_schedule`. -/
def IsCall (frame : Frame) : Prop :=
  frame ≠ .user ∧ ∀ pc l, frame ≠ .threadSchedule pc l

theorem baseFrame_eq_some {stack : List Frame} {frame : Frame} :
    baseFrame stack = some frame ↔
      (stack = [.user] ∧ frame = .user) ∨
        (stack = [frame, .user] ∧ IsCall frame) := by
  unfold baseFrame
  split
  · simp [eq_comm]
  · simp only [reduceCtorEq, List.cons.injEq, and_true, false_and, false_or,
      false_iff, not_and]
    rintro rfl distinct
    exact distinct.2 _ _ rfl
  · simp only [reduceCtorEq, List.cons.injEq, and_true, and_false, false_and,
      false_or, false_iff, not_and]
    rintro rfl distinct
    exact distinct.1 rfl
  · rename_i first notSchedule notUser
    simp only [Option.some.injEq, List.cons.injEq, reduceCtorEq, and_false,
      false_and, and_true, false_or]
    exact ⟨fun h => ⟨h, h ▸ ⟨notUser, notSchedule⟩⟩, And.left⟩
  · rename_i notUser _ _ notPair
    simp only [reduceCtorEq, false_iff, not_or, not_and]
    exact ⟨fun h => (notUser h).elim, fun h => (notPair frame h).elim⟩

theorem baseFrame_pair {frame : Frame} (isCall : IsCall frame) :
    baseFrame [frame, .user] = some frame :=
  baseFrame_eq_some.mpr (.inr ⟨rfl, isCall⟩)

/-- Resuming a saved context as the one `RUNNING` thread. -/
theorem liveOk_of_savedOk {p : Process} {owner : ThreadIndex}
    {saved : List Frame} (one : OneRunning p)
    (current : p.currentThread = some owner) (ok : SavedOk owner saved) :
    LiveOk p saved := by
  obtain ⟨frame, notInit, ownerOk, shape⟩ := ok
  have owned : ∀ c, p.currentThread = some c → OwnerOk c frame := by
    intro c currentEq
    have same : owner = c := Option.some.inj (current.symm.trans currentEq)
    exact same ▸ ownerOk
  have notSchedule {stack : List Frame}
      (shape : baseFrame stack = some frame) :
      ∀ pc l, frame ≠ .threadSchedule pc l := by
    rcases baseFrame_eq_some.mp shape with ⟨_, rfl⟩ | ⟨_, distinct⟩
    · simp
    · exact distinct.2
  rcases shape with shape | ⟨l, rest, rfl, shape⟩
  · exact .base shape
      (baseOk_of_oneRunning one notInit (notSchedule shape))
      (fun _ => one) owned
  · exact .schedule shape
      ⟨one, baseOk_of_oneRunning one notInit (notSchedule shape)⟩ owned

/-- After the switch exactly the chosen thread is `RUNNING`. -/
theorem threadSwitch_tableOk {p next : Process} {l : ScheduleLocals}
    {rest : List Frame} {frame : Frame} {chosen current : ThreadIndex}
    (saved : ∀ t frames, (p.allThread t).sp = some frames → SavedOk t frames)
    (shape : baseFrame rest = some frame)
    (owner : ∀ c, p.currentThread = some c → OwnerOk c frame)
    (handing : HandingOver p frame chosen current)
    (unmarked : p.stateOf current ≠ .running)
    (switched : threadSwitch p (.threadSchedule .finish l :: rest) =
      some next) : TableOk next := by
  simp only [threadSwitch, handing.currentEq, handing.nextEq,
    Process.sp_setSp, handing.distinct, if_false] at switched
  cases resumed : (p.allThread chosen).sp with
  | none => simp [resumed] at switched
  | some frames =>
      simp only [resumed, Option.some.injEq] at switched
      subst switched
      refine ⟨?_, liveOk_of_savedOk ?_ rfl (saved chosen frames resumed)⟩
      · intro t stored stored_eq
        change ((p.setSp current _).allThread t).sp = some stored at stored_eq
        rw [Process.sp_setSp] at stored_eq
        split at stored_eq
        · rename_i same
          subst same
          cases stored_eq
          exact ⟨frame, handing.notInit, owner t handing.currentEq,
            .inr ⟨l, rest, rfl, shape⟩⟩
        · exact saved t stored stored_eq
      · refine ⟨chosen, rfl, fun t => ?_⟩
        change (p.setSp current _).stateOf t = .running ↔ t = chosen
        rw [Process.stateOf_setSp]
        constructor
        · intro running
          rcases handing.only t running with rfl | rfl
          · rfl
          · exact (unmarked running).elim
        · rintro rfl
          exact handing.marked

theorem baseOk_of_same_table {p q : Process} {frame : Frame}
    (table : q.allThread = p.allThread)
    (current : q.currentThread = p.currentThread) (base : BaseOk p frame) :
    BaseOk q frame := by
  cases p
  cases q
  cases table
  cases current
  cases frame with
  | threadInit pc => cases pc <;> exact base
  | threadExit pc => cases pc <;> exact base
  | _ => exact base

/-- One statement of an uninterrupted `thread_schedule`. -/
theorem threadScheduleStep_tableOk {p next : Process} {pc : SchedulePc}
    {l : ScheduleLocals} {rest : List Frame} {frame : Frame}
    (saved : ∀ t frames, (p.allThread t).sp = some frames → SavedOk t frames)
    (shape : baseFrame rest = some frame)
    (owner : ∀ c, p.currentThread = some c → OwnerOk c frame)
    (table : ScheduleOk p l frame pc)
    (stepped : threadScheduleStep p rest l pc = some next)
    (live : next.exited = false) : TableOk next := by
  cases pc with
  | save =>
      cases stepped
      exact ⟨saved, .schedule shape
        ⟨baseOk_of_same_table rfl rfl table, rfl, rfl⟩ owner⟩
  | scan =>
      obtain ⟨base, currentSave, notFound⟩ := table
      simp only [threadScheduleStep] at stepped
      split at stepped <;> cases stepped
      · exact ⟨saved, .schedule shape
          ⟨baseOk_of_same_table rfl rfl base, currentSave, notFound⟩ owner⟩
      · exact ⟨saved, .schedule shape
          ⟨baseOk_of_same_table rfl rfl base, currentSave, by simp [notFound]⟩ owner⟩
  | compare =>
      obtain ⟨base, currentSave, notFound⟩ := table
      simp only [threadScheduleStep] at stepped
      split at stepped
      · split at stepped <;> cases stepped
        · rename_i inTable test
          exact ⟨saved, .schedule shape ⟨baseOk_of_same_table rfl rfl base,
            currentSave, fun _ => ⟨test.1, currentSave ▸ test.2⟩⟩ owner⟩
        · exact ⟨saved, .schedule shape
            ⟨baseOk_of_same_table rfl rfl base, currentSave, notFound⟩ owner⟩
      · cases stepped
  | take =>
      obtain ⟨base, currentSave, candidate⟩ := table
      simp only [threadScheduleStep] at stepped
      split at stepped <;> cases stepped
      rename_i inTable
      refine ⟨saved, .schedule shape
        ⟨baseOk_of_same_table rfl rfl base, currentSave, ?_⟩ owner⟩
      rintro chosen found
      cases found
      exact candidate inTable
  | choose =>
      obtain ⟨base, currentSave, candidate⟩ := table
      cases found : l.foundNext with
      | none =>
          simp only [threadScheduleStep, found] at stepped
          cases stepped
          exact ⟨saved, .schedule shape
            ⟨baseOk_of_same_table rfl rfl base, currentSave⟩ owner⟩
      | some chosen =>
          simp only [threadScheduleStep, found] at stepped
          cases stepped
          exact ⟨saved, .schedule shape ⟨baseOk_of_same_table rfl rfl base,
            currentSave, chosen, found, candidate chosen found⟩ owner⟩
  | setNext =>
      obtain ⟨base, currentSave, chosen, found, candidate⟩ := table
      cases stepped
      exact ⟨saved, .schedule shape ⟨baseOk_of_same_table rfl rfl base,
        currentSave, chosen, found, candidate⟩ owner⟩
  | markNext =>
      obtain ⟨base, currentSave, chosen, nextEq, candidate⟩ := table
      obtain ⟨current, currentEq⟩ := currentThread_of_candidate base candidate
      have distinct : chosen ≠ current := by
        rintro rfl
        exact candidate.2 currentEq.symm
      simp only [threadScheduleStep, nextEq] at stepped
      cases stepped
      refine ⟨?_, .schedule shape ⟨currentSave, chosen, current,
        { notInit := notInit_of_candidate base candidate
          nextEq := nextEq
          currentEq := currentEq
          distinct := distinct
          marked := by simp [Process.setStack, Process.stateOf, Process.setState]
          only := ?_ }⟩ owner⟩
      · intro t frames stored
        exact saved t frames ((p.sp_setState chosen t .running).symm.trans stored)
      · intro t running
        change (p.setState chosen .running).stateOf t = .running at running
        rw [Process.stateOf_setState] at running
        split at running
        · rename_i same
          exact .inl same
        · rcases baseOk_cases base with ⟨c, cEq, one⟩ | unmarked
          · have : c = current := Option.some.inj (cEq.symm.trans currentEq)
            exact .inr (this ▸ (one t).mp running)
          · exact (unmarked.1 t running).elim
  | testCurrent =>
      obtain ⟨currentSave, chosen, current, handing⟩ := table
      simp only [threadScheduleStep, currentSave, handing.currentEq] at stepped
      split at stepped <;> cases stepped
      · exact ⟨saved, .schedule shape
          ⟨currentSave, chosen, current, { handing with }⟩ owner⟩
      · rename_i notRunning
        exact ⟨saved, .schedule shape
          ⟨chosen, current, { handing with }, notRunning⟩ owner⟩
  | markCurrent =>
      obtain ⟨currentSave, chosen, current, handing⟩ := table
      simp only [threadScheduleStep, currentSave, handing.currentEq] at stepped
      cases stepped
      refine ⟨?_, .schedule shape ⟨chosen, current,
        { handing with
          marked := ?_
          only := ?_ }, ?_⟩ owner⟩
      · intro t frames stored
        exact saved t frames
          ((p.sp_setState current t .runnable).symm.trans stored)
      · change (p.setState current .runnable).stateOf chosen = .running
        rw [Process.stateOf_setState, if_neg handing.distinct]
        exact handing.marked
      · intro t running
        change (p.setState current .runnable).stateOf t = .running at running
        rw [Process.stateOf_setState] at running
        split at running
        · rename_i same
          exact .inr same
        · exact handing.only t running
      · change (p.setState current .runnable).stateOf current ≠ .running
        simp
  | switch =>
      obtain ⟨chosen, current, handing, unmarked⟩ := table
      exact threadSwitch_tableOk saved shape owner handing unmarked stepped
  | noSwitch =>
      obtain ⟨base, currentSave⟩ := table
      cases currentEq : p.currentThread with
      | none =>
          simp only [threadScheduleStep, currentSave, currentEq] at stepped
          cases stepped
          cases live
      | some current =>
          simp only [threadScheduleStep, currentSave, currentEq] at stepped
          split at stepped <;> cases stepped
          · cases live
          · rename_i notFree
            have one : OneRunning p := (baseOk_cases base).resolve_right
              fun unmarked => notFree (unmarked.2 current currentEq)
            exact ⟨saved, .schedule shape
              ⟨one, baseOk_of_same_table rfl rfl base⟩ owner⟩
  | finish =>
      obtain ⟨one, base⟩ := table
      cases stepped
      exact ⟨saved, .base shape (baseOk_of_same_table rfl rfl base)
        (fun _ => one) owner⟩

theorem oneRunning_current {p : Process} (one : OneRunning p) :
    ∃ current, p.currentThread = some current ∧
      p.stateOf current = .running := by
  obtain ⟨current, currentEq, running⟩ := one
  exact ⟨current, currentEq, (running current).mpr rfl⟩

/-- Marking a thread that is not running as `FREE` or `RUNNABLE` keeps the one
`RUNNING` entry. -/
theorem oneRunning_setState {p : Process} {t : ThreadIndex}
    {state : ThreadState} (one : OneRunning p)
    (other : p.currentThread ≠ some t) (notRunning : state ≠ .running) :
    OneRunning (p.setState t state) := by
  obtain ⟨current, currentEq, running⟩ := one
  refine ⟨current, currentEq, fun u => ?_⟩
  rw [Process.stateOf_setState]
  split
  · rename_i same
    subst same
    simp only [notRunning, false_iff]
    rintro rfl
    exact other currentEq
  · exact running u

theorem liveOk_pair {p : Process} {frame : Frame}
    (isCall : IsCall frame ∧ frame ≠ .threadExit .afterSchedule)
    (table : BaseOk p frame)
    (owner : ∀ c, p.currentThread = some c → OwnerOk c frame) :
    LiveOk p [frame, .user] :=
  .base (baseFrame_pair isCall.1) table
    (fun after => (isCall.2 after).elim) owner

theorem liveOk_user {p : Process} (one : OneRunning p) : LiveOk p [.user] :=
  .base rfl one (by simp) fun _ _ => trivial

/-- One statement of `thread_create`. -/
theorem threadCreateStep_tableOk {p next : Process} {pc : CreatePc} {t : Nat}
    (saved : ∀ t frames, (p.allThread t).sp = some frames → SavedOk t frames)
    (one : OneRunning p)
    (owner : ∀ c, p.currentThread = some c → OwnerOk c (.threadCreate pc t))
    (stepped : threadCreateStep p [.user] t pc = some next) :
    TableOk next := by
  have savedSetSp (inTable : t < maxThread) {sp : Option (List Frame)}
      (fresh : ∀ frames, sp = some frames → frames = [.user]) :
      ∀ u frames, ((p.setSp ⟨t, inTable⟩ sp).allThread u).sp = some frames →
        SavedOk u frames := by
    intro u frames stored
    rw [Process.sp_setSp] at stored
    split at stored
    · cases fresh frames stored
      exact ⟨.user, by simp [NotInit], trivial, .inl rfl⟩
    · exact saved u frames stored
  have oneSetSp (inTable : t < maxThread) (sp : Option (List Frame)) :
      OneRunning (p.setSp ⟨t, inTable⟩ sp) := by
    obtain ⟨current, currentEq, running⟩ := one
    exact ⟨current, currentEq, fun u => by
      rw [Process.stateOf_setSp]
      exact running u⟩
  cases pc with
  | scan =>
      simp only [threadCreateStep] at stepped
      split at stepped
      · split at stepped <;> cases stepped
        · rename_i inTable isFree
          refine ⟨saved, liveOk_pair (by simp [IsCall]) one ?_⟩
          rintro c currentEq - rfl
          obtain ⟨current, currentEq', running⟩ := oneRunning_current one
          cases currentEq'.symm.trans currentEq
          simp [isFree] at running
        · exact ⟨saved, liveOk_pair (by simp [IsCall]) one fun _ _ => by simp [OwnerOk]⟩
      · cases stepped
        exact ⟨saved, liveOk_user one⟩
  | setSp =>
      simp only [threadCreateStep] at stepped
      split at stepped <;> cases stepped
      exact ⟨savedSetSp _ (by simp), liveOk_pair (by simp [IsCall]) (oneSetSp _ _)
        fun c currentEq _ => owner c currentEq (by simp)⟩
  | reserveEip =>
      simp only [threadCreateStep] at stepped
      split at stepped <;> cases stepped
      exact ⟨savedSetSp _ (by simp), liveOk_pair (by simp [IsCall]) (oneSetSp _ _)
        fun c currentEq _ => owner c currentEq (by simp)⟩
  | storeFunc =>
      cases stepped
      exact ⟨saved, liveOk_pair (by simp [IsCall]) one
        fun c currentEq _ => owner c currentEq (by simp)⟩
  | reserveRegs =>
      simp only [threadCreateStep] at stepped
      split at stepped <;> cases stepped
      exact ⟨savedSetSp _ (by simp), liveOk_pair (by simp [IsCall]) (oneSetSp _ _)
        fun c currentEq _ => owner c currentEq (by simp)⟩
  | setState =>
      simp only [threadCreateStep] at stepped
      split at stepped <;> cases stepped
      rename_i inTable
      refine ⟨?_, liveOk_user (oneRunning_setState one ?_ (by simp))⟩
      · intro u frames stored
        exact saved u frames
          ((p.sp_setState ⟨t, inTable⟩ u .runnable).symm.trans stored)
      · intro currentEq
        exact owner _ currentEq (by simp) rfl

/-- One statement of `thread_exit`. -/
theorem threadExitStep_tableOk {p next : Process} {pc : ExitPc}
    (saved : ∀ t frames, (p.allThread t).sp = some frames → SavedOk t frames)
    (table : BaseOk p (.threadExit pc))
    (stepped : threadExitStep p [.user] pc = some next)
    (live : next.exited = false) : TableOk next := by
  cases pc with
  | setFree =>
      obtain ⟨current, currentEq, running⟩ := table
      simp only [threadExitStep, currentEq] at stepped
      cases stepped
      refine ⟨?_, liveOk_pair (by simp [IsCall]) (.inr ⟨⟨fun t => ?_, ?_⟩, ?_⟩)
        fun _ _ => trivial⟩
      · intro u frames stored
        exact saved u frames
          ((p.sp_setState current u .free).symm.trans stored)
      · change (p.setState current .free).stateOf t ≠ .running
        rw [Process.stateOf_setState]
        split
        · simp
        · rename_i other
          exact fun marked => other ((running t).mp marked)
      · intro c cEq
        cases currentEq.symm.trans cEq
        change (p.setState current .free).stateOf current = .free
        simp
      · exact fun none => by cases currentEq.symm.trans none
  | callSchedule =>
      cases stepped
      exact ⟨saved, .schedule (baseFrame_pair (by simp [IsCall])) table
        fun _ _ => trivial⟩
  | afterSchedule =>
      cases stepped
      cases live

/-- One statement of `thread_init`. -/
theorem threadInitStep_tableOk {p next : Process} {pc : InitPc}
    (saved : ∀ t frames, (p.allThread t).sp = some frames → SavedOk t frames)
    (table : BaseOk p (.threadInit pc))
    (stepped : threadInitStep p [.user] pc = some next) : TableOk next := by
  cases pc with
  | register =>
      cases stepped
      exact ⟨saved, liveOk_pair (by simp [IsCall]) table fun _ _ => trivial⟩
  | setCurrent =>
      cases stepped
      exact ⟨saved, liveOk_pair (by simp [IsCall]) ⟨rfl, table.2⟩ fun _ _ => trivial⟩
  | setRunning =>
      obtain ⟨currentEq, allFree⟩ := table
      simp only [threadInitStep, currentEq] at stepped
      cases stepped
      have states (t : ThreadIndex) :
          (p.setState ⟨0, by decide⟩ .running).stateOf t =
            if t = ⟨0, by decide⟩ then .running else .free := by
        rw [Process.stateOf_setState, allFree t]
      refine ⟨?_, liveOk_pair (by simp [IsCall]) ⟨by decide, ⟨_, currentEq, fun t => ?_⟩,
        currentEq, fun t other => ?_⟩ fun _ _ => trivial⟩
      · intro u frames stored
        exact saved u frames ((p.sp_setState _ u .running).symm.trans stored)
      · change (p.setState ⟨0, by decide⟩ .running).stateOf t = .running ↔ _
        rw [states]
        split <;> simp_all
      · change (p.setState ⟨0, by decide⟩ .running).stateOf t = .free
        rw [states, if_neg]
        rintro rfl
        exact other currentEq
  | clear i =>
      obtain ⟨positive, one, currentEq, othersFree⟩ := table
      simp only [threadInitStep] at stepped
      split at stepped <;> cases stepped
      · rename_i inTable
        have other : p.currentThread ≠ some ⟨i, inTable⟩ := by
          rw [currentEq]
          intro same
          cases same
          exact absurd positive (lt_irrefl 0)
        refine ⟨?_, liveOk_pair (by simp [IsCall]) ⟨Nat.succ_pos i,
          oneRunning_setState one other (by simp), currentEq, fun t distinct => ?_⟩
          fun _ _ => trivial⟩
        · intro u frames stored
          exact saved u frames ((p.sp_setState _ u .free).symm.trans stored)
        · change (p.setState ⟨i, inTable⟩ .free).stateOf t = .free
          rw [Process.stateOf_setState]
          split
          · rfl
          · exact othersFree t distinct
      · exact ⟨saved, liveOk_user one⟩

/-- One step of a run whose ticks are taken outside the scheduler. -/
theorem step_tableOk {p next : Process} {label : Label} (ok : TableOk p)
    (tickOutside : TickOutside p label) (stepped : step p label = some next)
    (live : next.exited = false) : TableOk next := by
  obtain ⟨allThread, currentThread, nextThread, registered, exited, stack⟩ := p
  obtain ⟨saved, running⟩ := ok
  simp only [step] at stepped
  cases exited with
  | true => simp at stepped
  | false =>
      simp only [Bool.false_eq_true, if_false] at stepped
      cases running with
      | @schedule pc l rest frame shape table owner =>
          cases label with
          | tick => exact (tickOutside rfl ⟨pc, l, rest, rfl⟩).elim
          | statement =>
              exact threadScheduleStep_tableOk saved shape owner table stepped
                live
          | create => cases stepped
          | schedule => cases stepped
          | exit => cases stepped
      | @base _ frame shape table returned owner =>
          rcases baseFrame_eq_some.mp shape with ⟨rfl, rfl⟩ | ⟨rfl, isCall⟩
          · cases label with
            | tick =>
                simp only at stepped
                split at stepped <;> cases stepped
                exact ⟨saved, .schedule shape table owner⟩
            | statement =>
                cases stepped
                exact ⟨saved, liveOk_user table⟩
            | create =>
                cases stepped
                exact ⟨saved, liveOk_pair (by simp [IsCall]) table
                  fun _ _ => by simp [OwnerOk]⟩
            | schedule =>
                cases stepped
                exact ⟨saved, .schedule shape table owner⟩
            | exit =>
                cases stepped
                exact ⟨saved, liveOk_pair (by simp [IsCall]) table
                  fun _ _ => trivial⟩
          · cases label with
            | tick =>
                simp only at stepped
                split at stepped <;> cases stepped
                exact ⟨saved, .schedule shape
                  (baseOk_of_same_table rfl rfl table) owner⟩
            | statement =>
                cases frame with
                | user => exact (isCall.1 rfl).elim
                | threadInit pc =>
                    exact threadInitStep_tableOk saved table stepped
                | threadCreate pc t =>
                    exact threadCreateStep_tableOk saved table owner stepped
                | threadExit pc =>
                    exact threadExitStep_tableOk saved table stepped live
                | threadSchedule pc l => exact table.elim
            | create =>
                cases frame <;> first
                  | exact (isCall.1 rfl).elim
                  | cases stepped
            | schedule =>
                cases frame <;> first
                  | exact (isCall.1 rfl).elim
                  | cases stepped
            | exit =>
                cases frame <;> first
                  | exact (isCall.1 rfl).elim
                  | cases stepped

theorem start_tableOk : TableOk start := by
  refine ⟨fun t frames stored => ?_, ?_⟩
  · cases stored
  · exact liveOk_pair (by simp [IsCall]) ⟨rfl, fun _ => rfl⟩ fun _ _ => trivial

theorem not_oneRunning_of_unmarked {p : Process} (unmarked : Unmarked p) :
    ¬ OneRunning p := by
  rintro ⟨current, _, running⟩
  exact unmarked.1 current ((running current).mpr rfl)

/-- Outside the scheduler the table invariant fails only in the window where
the code itself has unmarked the running thread. -/
theorem oneRunning_iff_of_tableOk {p : Process} (ok : TableOk p)
    (outside : Outside p) : OneRunning p ↔ ¬ InWindow p := by
  refine ⟨fun one window => not_oneRunning_of_unmarked window.1 one,
    fun notWindow => ?_⟩
  obtain ⟨_, live⟩ := ok
  generalize stackEq : p.stack = stack at live
  cases live with
  | @schedule pc l rest => exact (outside.2 ⟨pc, l, rest, stackEq⟩).elim
  | @base _ frame shape table returned _ =>
      rcases baseOk_cases table with one | unmarked
      · exact one
      · have found (stand : (∃ rest, p.stack = .threadExit .callSchedule :: rest) ∨
            ∃ pc rest, p.stack = .threadInit pc :: rest ∧ ∀ i, pc ≠ .clear i) :
            OneRunning p := (notWindow ⟨unmarked, stand⟩).elim
        rcases baseFrame_eq_some.mp shape with ⟨rfl, rfl⟩ | ⟨rfl, isCall⟩
        · exact table
        · cases frame with
          | user => exact table
          | threadCreate pc t => exact table
          | threadExit pc =>
              cases pc with
              | setFree => exact table
              | callSchedule => exact found (.inl ⟨_, stackEq⟩)
              | afterSchedule => exact returned rfl
          | threadInit pc =>
              cases pc with
              | clear i => exact table.2.1
              | register => exact found (.inr ⟨_, _, stackEq, by simp⟩)
              | setCurrent => exact found (.inr ⟨_, _, stackEq, by simp⟩)
              | setRunning => exact found (.inr ⟨_, _, stackEq, by simp⟩)
          | threadSchedule pc l => exact table.elim

/-- In every run whose ticks are all taken outside `thread_schedule`, at every
statement outside the scheduler exactly one entry is `RUNNING` and it is
`*current_thread`, unless control stands in the window where the code has
unmarked the running thread. -/
theorem oneRunning_iff_of_ticks_outside {labels : List Label} {p : Process}
    (meets : RunMeets step TickOutside start labels)
    (ran : run step start labels = some p) (outside : Outside p) :
    OneRunning p ↔ ¬ InWindow p := by
  let Ok (q : Process) : Prop := q.exited = false → TableOk q
  have preserved {q label next} (holds : Ok q) (tickOutside : TickOutside q label)
      (stepped : step q label = some next) : Ok next := by
    intro live
    refine step_tableOk (holds ?_) tickOutside stepped live
    by_contra exited
    simp [step, Bool.not_eq_false _ ▸ exited] at stepped
  have ok : Ok p :=
    invariant_of_runMeets preserved (fun _ => start_tableOk) meets ran
  exact oneRunning_iff_of_tableOk (ok outside.1) outside

/-- `thread_init`, then two `thread_create` calls by `main`. -/
def createTwo : List Label :=
  List.replicate 7 Label.statement ++
    (Label.create :: List.replicate 7 Label.statement) ++
    (Label.create :: List.replicate 8 Label.statement)

/-- `main` calls the scheduler, which marks thread 1; the tick then starts a
second activation, which marks thread 2, unmarks `main` and switches. -/
def nestedTick : List Label :=
  createTwo ++ (Label.schedule :: List.replicate 9 Label.statement) ++
    (Label.tick :: List.replicate 14 Label.statement)

/-- A tick inside `thread_schedule` leaves thread 1 `RUNNING` while thread 2
executes. -/
theorem two_running_after_nested_tick :
    ∃ p, run step start nestedTick = some p ∧ Outside p ∧ ¬ OneRunning p ∧
      p.currentThread = some 2 ∧ p.stateOf 1 = .running ∧
      p.stateOf 2 = .running :=
  ⟨(run step start nestedTick).get (by decide), by simp, by decide, by decide,
    by decide, by decide, by decide⟩

/-- The same calls with the tick taken after the switch, in thread 1. -/
def tickAfterSwitch : List Label :=
  createTwo ++ (Label.schedule :: List.replicate 12 Label.statement) ++
    (Label.tick :: List.replicate 11 Label.statement)

theorem tickAfterSwitch_oneRunning_iff :
    ∃ p, RunMeets step TickOutside start tickAfterSwitch ∧
      run step start tickAfterSwitch = some p ∧ Outside p ∧
      (OneRunning p ↔ ¬ InWindow p) := by
  have meets : RunMeets step TickOutside start tickAfterSwitch := by decide
  have outside : Outside
      ((run step start tickAfterSwitch).get (by decide)) := by decide
  exact ⟨_, meets, by simp, outside,
    oneRunning_iff_of_ticks_outside meets (by simp) outside⟩

end Xv6.Uthread
