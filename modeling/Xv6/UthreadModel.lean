import Mathlib.Data.Fintype.Basic
import Mathlib.Logic.Function.Basic
import Xv6.LabelledRuns

/-!
# The user-level thread library, statement by statement

This file models `uthread1.c` at the granularity of C statements.  Control is
a list of activation records, innermost first; a timer tick pushes a new
activation of `thread_schedule` on whatever the process was executing, as the
redirect in `trap.c` does.  `thread_switch` is one statement of
`thread_schedule`: it stores the running list of activations in the `sp` field
of `*current_thread` and continues with the one stored in `*next_thread`.

The `printf` statements change none of this state, so a tick beside one of
them is a tick at the neighbouring statement and they are left out.
-/

namespace Xv6.Uthread

/-- `MAX_THREAD`. -/
abbrev maxThread : Nat := 4

/-- An index of `all_thread`; a `thread_p` is one of these or null. -/
abbrev ThreadIndex := Fin maxThread

inductive ThreadState where
  | free
  | running
  | runnable
  deriving DecidableEq, Repr

/-- The next statement of `thread_schedule`. -/
inductive SchedulePc where
  /-- `found_next = 0; current_save = current_thread; i = 0` -/
  | save
  /-- the loop test `i < MAX_THREAD` -/
  | scan
  /-- `t->state == RUNNABLE && t != current_save`, else `i++` -/
  | compare
  /-- `found_next = t; break` -/
  | take
  /-- `if (found_next != 0)` -/
  | choose
  /-- `next_thread = found_next` -/
  | setNext
  /-- `next_thread->state = RUNNING` -/
  | markNext
  /-- `if (current_save != 0 && current_save->state == RUNNING)` -/
  | testCurrent
  /-- `current_save->state = RUNNABLE` -/
  | markCurrent
  /-- `thread_switch()` -/
  | switch
  /-- the `else` branch, which exits when the caller is not a live thread -/
  | noSwitch
  /-- the end of the function -/
  | finish
  deriving DecidableEq, Repr

/-- The local variables of one activation of `thread_schedule`. -/
structure ScheduleLocals where
  i : Nat
  foundNext : Option ThreadIndex
  currentSave : Option ThreadIndex
  deriving DecidableEq, Repr

/-- The next statement of `thread_create`. -/
inductive CreatePc where
  /-- the loop `t < all_thread + MAX_THREAD`, `if (t->state == FREE) break` -/
  | scan
  /-- `t->sp = (int)(t->stack + STACK_SIZE)` -/
  | setSp
  /-- `t->sp -= 4` -/
  | reserveEip
  /-- `*(int*)(t->sp) = (int)func` -/
  | storeFunc
  /-- `t->sp -= 16` -/
  | reserveRegs
  /-- `t->state = RUNNABLE` -/
  | setState
  deriving DecidableEq, Repr

/-- The next statement of `thread_exit`. -/
inductive ExitPc where
  /-- `current_thread->state = FREE` -/
  | setFree
  /-- `thread_schedule()` -/
  | callSchedule
  /-- `exit()`, after the scheduler returned unexpectedly -/
  | afterSchedule
  deriving DecidableEq, Repr

/-- The next statement of `thread_init`. -/
inductive InitPc where
  /-- `uthread_init((int)thread_schedule)` -/
  | register
  /-- `current_thread = &all_thread[0]` -/
  | setCurrent
  /-- `current_thread->state = RUNNING` -/
  | setRunning
  /-- the loop that stores `FREE` in `all_thread[i].state` -/
  | clear (i : Nat)
  deriving DecidableEq, Repr

/-- An activation record.  `user` is the code of a thread function or of
`main`; it may call the library at any time. -/
inductive Frame where
  | user
  | threadInit (pc : InitPc)
  | threadCreate (pc : CreatePc) (t : Nat)
  | threadExit (pc : ExitPc)
  | threadSchedule (pc : SchedulePc) (locals : ScheduleLocals)
  deriving DecidableEq, Repr

/-- An entry of `all_thread`.  `sp` is the list of activations that the saved
stack pointer denotes, and `none` while it denotes no context that
`thread_switch` could resume. -/
structure Thread where
  sp : Option (List Frame)
  state : ThreadState
  deriving DecidableEq, Repr

/-- The state of the process as far as the thread library is concerned. -/
structure Process where
  allThread : ThreadIndex → Thread
  currentThread : Option ThreadIndex
  nextThread : Option ThreadIndex
  /-- `uthread_init` has stored a scheduler address in the kernel -/
  registered : Bool
  exited : Bool
  stack : List Frame

/-- The process at the first statement of `thread_init`, called by `main`. -/
def start : Process where
  allThread := fun _ => ⟨none, .free⟩
  currentThread := none
  nextThread := none
  registered := false
  exited := false
  stack := [.threadInit .register, .user]

/-- The state of a thread. -/
def Process.stateOf (p : Process) (t : ThreadIndex) : ThreadState :=
  (p.allThread t).state

def Process.setState (p : Process) (t : ThreadIndex) (state : ThreadState) :
    Process :=
  { p with allThread :=
      Function.update p.allThread t { p.allThread t with state := state } }

def Process.setSp (p : Process) (t : ThreadIndex) (sp : Option (List Frame)) :
    Process :=
  { p with allThread :=
      Function.update p.allThread t { p.allThread t with sp := sp } }

def Process.setStack (p : Process) (stack : List Frame) : Process :=
  { p with stack := stack }

@[simp]
theorem Process.stateOf_setState (p : Process) (t u : ThreadIndex)
    (state : ThreadState) :
    (p.setState t state).stateOf u = if u = t then state else p.stateOf u := by
  by_cases same : u = t
  · subst same
    simp [Process.stateOf, Process.setState]
  · simp [Process.stateOf, Process.setState, same]

@[simp]
theorem Process.stateOf_setSp (p : Process) (t u : ThreadIndex)
    (sp : Option (List Frame)) :
    (p.setSp t sp).stateOf u = p.stateOf u := by
  by_cases same : u = t
  · subst same
    simp [Process.stateOf, Process.setSp]
  · simp [Process.stateOf, Process.setSp, same]

@[simp]
theorem Process.sp_setState (p : Process) (t u : ThreadIndex)
    (state : ThreadState) :
    ((p.setState t state).allThread u).sp = (p.allThread u).sp := by
  by_cases same : u = t
  · subst same
    simp [Process.setState]
  · simp [Process.setState, same]

@[simp]
theorem Process.sp_setSp (p : Process) (t u : ThreadIndex)
    (sp : Option (List Frame)) :
    ((p.setSp t sp).allThread u).sp =
      if u = t then sp else (p.allThread u).sp := by
  by_cases same : u = t
  · subst same
    simp [Process.setSp]
  · simp [Process.setSp, same]

/-- The locals before the first statement of `thread_schedule`. -/
def ScheduleLocals.fresh : ScheduleLocals := ⟨0, none, none⟩

/-- The activation that a call of `thread_schedule`, or a tick, pushes. -/
def Frame.scheduleEntry : Frame := .threadSchedule .save .fresh

/-- `thread_switch`, from the first push to the final `ret`.  A null
`current_thread` or `next_thread`, or a saved stack pointer that denotes no
context, is a wild access with no successor here. -/
def threadSwitch (p : Process) (caller : List Frame) : Option Process :=
  match p.currentThread, p.nextThread with
  | some current, some next =>
      let saved := p.setSp current (some caller)
      match (saved.allThread next).sp with
      | some resumed => some
          { saved with currentThread := some next, stack := resumed }
      | none => none
  | _, _ => none

/-- One statement of `thread_schedule`, called from `rest`. -/
def threadScheduleStep (p : Process) (rest : List Frame) (l : ScheduleLocals) :
    SchedulePc → Option Process
  | .save => some (p.setStack (.threadSchedule .scan
      ⟨0, none, p.currentThread⟩ :: rest))
  | .scan =>
      if l.i < maxThread then
        some (p.setStack (.threadSchedule .compare l :: rest))
      else some (p.setStack (.threadSchedule .choose l :: rest))
  | .compare =>
      if inTable : l.i < maxThread then
        if p.stateOf ⟨l.i, inTable⟩ = .runnable ∧
            some ⟨l.i, inTable⟩ ≠ l.currentSave then
          some (p.setStack (.threadSchedule .take l :: rest))
        else some (p.setStack
          (.threadSchedule .scan { l with i := l.i + 1 } :: rest))
      else none
  | .take =>
      if inTable : l.i < maxThread then
        some (p.setStack (.threadSchedule .choose
          { l with foundNext := some ⟨l.i, inTable⟩ } :: rest))
      else none
  | .choose =>
      match l.foundNext with
      | some _ => some (p.setStack (.threadSchedule .setNext l :: rest))
      | none => some (p.setStack (.threadSchedule .noSwitch l :: rest))
  | .setNext => some
      { p with nextThread := l.foundNext
               stack := .threadSchedule .markNext l :: rest }
  | .markNext =>
      match p.nextThread with
      | some next => some ((p.setState next .running).setStack
          (.threadSchedule .testCurrent l :: rest))
      | none => none
  | .testCurrent =>
      match l.currentSave with
      | some current =>
          if p.stateOf current = .running then
            some (p.setStack (.threadSchedule .markCurrent l :: rest))
          else some (p.setStack (.threadSchedule .switch l :: rest))
      | none => some (p.setStack (.threadSchedule .switch l :: rest))
  | .markCurrent =>
      match l.currentSave with
      | some current => some ((p.setState current .runnable).setStack
          (.threadSchedule .switch l :: rest))
      | none => none
  | .switch => threadSwitch p (.threadSchedule .finish l :: rest)
  | .noSwitch =>
      match l.currentSave with
      | some current =>
          if p.stateOf current = .free then some { p with exited := true }
          else some (p.setStack (.threadSchedule .finish l :: rest))
      | none => some { p with exited := true }
  | .finish => some (p.setStack rest)

/-- One statement of `thread_create`, with loop variable `t`, called from
`rest`. -/
def threadCreateStep (p : Process) (rest : List Frame) (t : Nat) :
    CreatePc → Option Process
  | .scan =>
      if inTable : t < maxThread then
        if p.stateOf ⟨t, inTable⟩ = .free then
          some (p.setStack (.threadCreate .setSp t :: rest))
        else some (p.setStack (.threadCreate .scan (t + 1) :: rest))
      else some (p.setStack rest)
  | .setSp =>
      if inTable : t < maxThread then
        some ((p.setSp ⟨t, inTable⟩ none).setStack
          (.threadCreate .reserveEip t :: rest))
      else none
  | .reserveEip =>
      if inTable : t < maxThread then
        some ((p.setSp ⟨t, inTable⟩ none).setStack
          (.threadCreate .storeFunc t :: rest))
      else none
  | .storeFunc => some (p.setStack (.threadCreate .reserveRegs t :: rest))
  | .reserveRegs =>
      if inTable : t < maxThread then
        some ((p.setSp ⟨t, inTable⟩ (some [.user])).setStack
          (.threadCreate .setState t :: rest))
      else none
  | .setState =>
      if inTable : t < maxThread then
        some ((p.setState ⟨t, inTable⟩ .runnable).setStack rest)
      else none

/-- One statement of `thread_exit`, called from `rest`. -/
def threadExitStep (p : Process) (rest : List Frame) :
    ExitPc → Option Process
  | .setFree =>
      match p.currentThread with
      | some current => some ((p.setState current .free).setStack
          (.threadExit .callSchedule :: rest))
      | none => none
  | .callSchedule => some (p.setStack
      (.scheduleEntry :: .threadExit .afterSchedule :: rest))
  | .afterSchedule => some { p with exited := true }

/-- One statement of `thread_init`, called from `rest`. -/
def threadInitStep (p : Process) (rest : List Frame) :
    InitPc → Option Process
  | .register => some
      { p with registered := true
               stack := .threadInit .setCurrent :: rest }
  | .setCurrent => some
      { p with currentThread := some ⟨0, by decide⟩
               stack := .threadInit .setRunning :: rest }
  | .setRunning =>
      match p.currentThread with
      | some current => some ((p.setState current .running).setStack
          (.threadInit (.clear 1) :: rest))
      | none => none
  | .clear i =>
      if inTable : i < maxThread then
        some ((p.setState ⟨i, inTable⟩ .free).setStack
          (.threadInit (.clear (i + 1)) :: rest))
      else some (p.setStack rest)

/-- What happens next: a timer tick, the next statement of the running
activation, or a call from user code. -/
inductive Label where
  | tick
  | statement
  | create
  | schedule
  | exit
  deriving DecidableEq, Repr

/-- One step of the process.  A tick is redirected only after `uthread_init`;
before that the kernel handles it alone and nothing changes here. -/
def step (p : Process) (label : Label) : Option Process :=
  if p.exited then none
  else match label, p.stack with
    | .tick, stack =>
        if p.registered then some (p.setStack (.scheduleEntry :: stack))
        else none
    | .statement, .user :: _ => some p
    | .create, .user :: rest => some
        (p.setStack (.threadCreate .scan 0 :: .user :: rest))
    | .schedule, .user :: rest => some
        (p.setStack (.scheduleEntry :: .user :: rest))
    | .exit, .user :: rest => some
        (p.setStack (.threadExit .setFree :: .user :: rest))
    | .statement, .threadInit pc :: rest => threadInitStep p rest pc
    | .statement, .threadCreate pc t :: rest => threadCreateStep p rest t pc
    | .statement, .threadExit pc :: rest => threadExitStep p rest pc
    | .statement, .threadSchedule pc l :: rest =>
        threadScheduleStep p rest l pc
    | _, _ => none

/-- Control is inside `thread_schedule` or `thread_switch`. -/
def InSchedule (p : Process) : Prop :=
  ∃ pc l rest, p.stack = .threadSchedule pc l :: rest

def Frame.isSchedule : Frame → Bool
  | .threadSchedule _ _ => true
  | _ => false

theorem inSchedule_iff (p : Process) :
    (p.stack.head?.any Frame.isSchedule = true) ↔ InSchedule p := by
  unfold InSchedule
  rcases p.stack with _ | ⟨frame, rest⟩
  · simp
  · cases frame <;> simp [Frame.isSchedule]

instance : DecidablePred InSchedule := fun p =>
  decidable_of_iff _ (inSchedule_iff p)

/-- The live process executes outside `thread_schedule` and `thread_switch`. -/
def Outside (p : Process) : Prop := p.exited = false ∧ ¬ InSchedule p

instance : DecidablePred Outside := fun _ => inferInstanceAs (Decidable (_ ∧ _))

/-- Exactly one entry of `all_thread` is `RUNNING`, and it is
`*current_thread`. -/
def OneRunning (p : Process) : Prop :=
  ∃ current, p.currentThread = some current ∧
    ∀ t, p.stateOf t = .running ↔ t = current

instance : DecidablePred OneRunning := fun p =>
  inferInstanceAs (Decidable (∃ current : ThreadIndex,
    p.currentThread = some current ∧
      ∀ t : ThreadIndex, p.stateOf t = .running ↔ t = current))

/-- No entry of `all_thread` is `RUNNING`, and the current one is `FREE`. -/
def Unmarked (p : Process) : Prop :=
  (∀ t, p.stateOf t ≠ .running) ∧
    ∀ current, p.currentThread = some current → p.stateOf current = .free

/-- Control stands in `thread_exit` between the store of `FREE` and the call
of the scheduler, or in `thread_init` before thread 0 is marked. -/
def InWindow (p : Process) : Prop :=
  Unmarked p ∧
    ((∃ rest, p.stack = .threadExit .callSchedule :: rest) ∨
      ∃ pc rest, p.stack = .threadInit pc :: rest ∧ ∀ i, pc ≠ .clear i)

/-- Ticks are taken only while control is outside `thread_schedule`. -/
def TickOutside (p : Process) (label : Label) : Prop :=
  label = .tick → ¬ InSchedule p

instance (p : Process) (label : Label) : Decidable (TickOutside p label) :=
  inferInstanceAs (Decidable (_ → _))

end Xv6.Uthread
