import Xv6.UthreadTableInvariant

/-!
# The scan of `thread_schedule`

What an uninterrupted scan of the table has found at each of its statements:
the thread that it takes is the first candidate of the table, and it gives up
only when there is none.
-/

namespace Xv6.Uthread

open LabelledRuns

/-- The first thread of the table that the scheduler can choose. -/
def FirstCandidate (p : Process) (n : ThreadIndex) : Prop :=
  Candidate p n ∧ ∀ u, u < n → ¬ Candidate p u

/-- What the scan has found at each statement of `thread_schedule`, as long as
it has marked no thread. -/
def ScanOk (p : Process) (l : ScheduleLocals) : SchedulePc → Prop
  | .scan | .compare => ∀ u : ThreadIndex, u.val < l.i → ¬ Candidate p u
  | .take => ∀ inTable : l.i < maxThread, FirstCandidate p ⟨l.i, inTable⟩
  | .choose => (∀ n, l.foundNext = some n → FirstCandidate p n) ∧
      (l.foundNext = none → ∀ u, ¬ Candidate p u)
  | .setNext => ∀ n, l.foundNext = some n → FirstCandidate p n
  | .markNext => ∀ n, p.nextThread = some n → FirstCandidate p n
  | .noSwitch => ∀ u, ¬ Candidate p u
  | .save | .testCurrent | .markCurrent | .switch | .finish => True

/-- A predicate holds of the innermost activation, when that is one of
`thread_schedule`. -/
def InnermostMeets (p : Process) (meets : SchedulePc → ScheduleLocals → Prop) :
    Prop :=
  ∀ pc l rest, p.stack = .threadSchedule pc l :: rest → meets pc l

/-- The invariant of live processes whose ticks come outside the scheduler. -/
structure ScannedOk (p : Process) : Prop where
  table : TableOk p
  scan : InnermostMeets p fun pc l => ScanOk p l pc

theorem notSchedule_of_baseFrame {stack : List Frame} {frame : Frame}
    (shape : baseFrame stack = some frame) (pc : SchedulePc)
    (l : ScheduleLocals) (rest : List Frame) :
    stack ≠ .threadSchedule pc l :: rest := by
  rintro rfl
  rcases baseFrame_eq_some.mp shape with ⟨same, _⟩ | ⟨same, isCall⟩
  · cases same
  · cases same
    exact isCall.2 pc l rfl

theorem InnermostMeets.of_outside {p : Process}
    {meets : SchedulePc → ScheduleLocals → Prop}
    (outside : ∀ pc l rest, p.stack ≠ .threadSchedule pc l :: rest) :
    InnermostMeets p meets :=
  fun pc l rest inside => absurd inside (outside pc l rest)

theorem InnermostMeets.of_frame {p : Process}
    {meets : SchedulePc → ScheduleLocals → Prop} {pc : SchedulePc}
    {l : ScheduleLocals} {rest : List Frame}
    (top : p.stack = .threadSchedule pc l :: rest) (holds : meets pc l) :
    InnermostMeets p meets := by
  intro pc' l' rest' inside
  rw [top] at inside
  cases inside
  exact holds

theorem InnermostMeets.of_savedOk {p : Process}
    {meets : SchedulePc → ScheduleLocals → Prop} {owner : ThreadIndex}
    (ok : SavedOk owner p.stack) (holds : ∀ l, meets .finish l) :
    InnermostMeets p meets := by
  obtain ⟨frame, _, _, shape | ⟨l, rest, top, _⟩⟩ := ok
  · exact .of_outside (notSchedule_of_baseFrame shape)
  · exact .of_frame top (holds l)

/-- What `thread_switch` does. -/
theorem threadSwitch_eq_some {p next : Process} {caller : List Frame}
    (switched : threadSwitch p caller = some next) :
    ∃ c n, p.currentThread = some c ∧ p.nextThread = some n ∧
      next.currentThread = some n ∧ next.nextThread = p.nextThread ∧
      (∀ t, next.stateOf t = p.stateOf t) ∧ next.exited = p.exited ∧
      ((p.setSp c (some caller)).allThread n).sp = some next.stack := by
  unfold threadSwitch at switched
  split at switched
  · rename_i c n currentEq nextEq
    simp only at switched
    split at switched
    · rename_i resumed resumedEq
      cases switched
      exact ⟨c, n, currentEq, nextEq, rfl, rfl,
        fun t => Process.stateOf_setSp p c t _, rfl, resumedEq⟩
    · cases switched
  · cases switched

/-- The thread that the step switches to. -/
def switchedTo (p : Process) : Label → Option ThreadIndex
  | .statement =>
      match p.stack with
      | .threadSchedule .switch _ :: _ => p.nextThread
      | _ => none
  | _ => none

theorem not_exited_of_step {p next : Process} {label : Label}
    (stepped : step p label = some next) : p.exited = false := by
  by_contra exited
  simp [step, Bool.not_eq_false _ ▸ exited] at stepped

/-- Only `thread_init` and `thread_switch` change `current_thread`. -/
theorem step_currentThread {p next : Process} {label : Label}
    (stepped : step p label = some next) :
    (next.currentThread = p.currentThread ∧ switchedTo p label = none) ∨
      (∃ rest, p.stack = .threadInit .setCurrent :: rest ∧
        switchedTo p label = none) ∨
      ∃ l rest, label = .statement ∧
        p.stack = .threadSchedule .switch l :: rest ∧
        threadSwitch p (.threadSchedule .finish l :: rest) = some next := by
  unfold step at stepped
  split at stepped
  · cases stepped
  · split at stepped
    · split at stepped <;> cases stepped
      exact .inl ⟨rfl, rfl⟩
    · rename_i top
      cases stepped
      exact .inl ⟨rfl, by simp [switchedTo, top]⟩
    · cases stepped
      exact .inl ⟨rfl, rfl⟩
    · cases stepped
      exact .inl ⟨rfl, rfl⟩
    · cases stepped
      exact .inl ⟨rfl, rfl⟩
    · rename_i pc rest top
      have notSwitch : switchedTo p .statement = none := by
        simp [switchedTo, top]
      cases pc with
      | setCurrent => exact .inr (.inl ⟨rest, top, notSwitch⟩)
      | register =>
          cases stepped
          exact .inl ⟨rfl, notSwitch⟩
      | setRunning | clear =>
          simp only [threadInitStep] at stepped
          split at stepped <;> cases stepped
          all_goals exact .inl ⟨rfl, notSwitch⟩
    · rename_i pc t rest top
      refine .inl ⟨?_, by simp [switchedTo, top]⟩
      cases pc <;> simp only [threadCreateStep] at stepped
      all_goals repeat' split at stepped
      all_goals cases stepped
      all_goals rfl
    · rename_i pc rest top
      refine .inl ⟨?_, by simp [switchedTo, top]⟩
      cases pc <;> simp only [threadExitStep] at stepped
      all_goals repeat' split at stepped
      all_goals cases stepped
      all_goals rfl
    · rename_i pc l rest top
      by_cases switching : pc = .switch
      · subst switching
        exact .inr (.inr ⟨l, rest, rfl, top, stepped⟩)
      · refine .inl ⟨?_, by simp [switchedTo, top, switching]⟩
        cases pc
        case switch => exact absurd rfl switching
        all_goals simp only [threadScheduleStep] at stepped
        all_goals repeat' split at stepped
        all_goals cases stepped
        all_goals rfl
    · cases stepped

theorem stateOf_setState_cases (p : Process) (u t : ThreadIndex)
    (state : ThreadState) :
    (p.setState u state).stateOf t = p.stateOf t ∨
      t = u ∧ (p.setState u state).stateOf t = state := by
  rw [Process.stateOf_setState]
  split
  · rename_i same
    exact .inr ⟨same, rfl⟩
  · exact .inl rfl

/-- Where the state of a thread changes. -/
theorem step_stateOf {p next : Process} {label : Label}
    (stepped : step p label = some next) (t : ThreadIndex) :
    next.stateOf t = p.stateOf t ∨
      (∃ rest, p.stack = .threadExit .setFree :: rest ∧ label = .statement ∧
        p.currentThread = some t ∧ next.stateOf t = .free) ∨
      (∃ rest, p.stack = .threadCreate .setState t.val :: rest ∧
        label = .statement ∧ next.stateOf t = .runnable) ∨
      (∃ rest, p.stack = .threadInit .setRunning :: rest ∧
        p.currentThread = some t ∧ next.stateOf t = .running) ∨
      (∃ rest, p.stack = .threadInit (.clear t.val) :: rest ∧
        next.stateOf t = .free) ∨
      (∃ l rest, p.stack = .threadSchedule .markNext l :: rest ∧
        p.nextThread = some t ∧ next.stateOf t = .running) ∨
      ∃ l rest, p.stack = .threadSchedule .markCurrent l :: rest ∧
        l.currentSave = some t ∧ next.stateOf t = .runnable := by
  unfold step at stepped
  split at stepped
  · cases stepped
  · split at stepped
    · split at stepped <;> cases stepped
      exact .inl rfl
    · cases stepped
      exact .inl rfl
    · cases stepped
      exact .inl rfl
    · cases stepped
      exact .inl rfl
    · cases stepped
      exact .inl rfl
    · rename_i pc rest top
      cases pc with
      | register | setCurrent =>
          cases stepped
          exact .inl rfl
      | setRunning =>
          simp only [threadInitStep] at stepped
          split at stepped <;> cases stepped
          rename_i current currentEq
          rcases stateOf_setState_cases p current t .running with same | ⟨rfl, marked⟩
          · exact .inl same
          · exact .inr (.inr (.inr (.inl ⟨rest, top, currentEq, marked⟩)))
      | clear i =>
          simp only [threadInitStep] at stepped
          split at stepped <;> cases stepped
          · rename_i inTable
            rcases stateOf_setState_cases p ⟨i, inTable⟩ t .free with
              same | ⟨rfl, marked⟩
            · exact .inl same
            · exact .inr (.inr (.inr (.inr (.inl ⟨rest, top, marked⟩))))
          · exact .inl rfl
    · rename_i pc u rest top
      cases pc with
      | setState =>
          simp only [threadCreateStep] at stepped
          split at stepped <;> cases stepped
          rename_i inTable
          rcases stateOf_setState_cases p ⟨u, inTable⟩ t .runnable with
            same | ⟨rfl, marked⟩
          · exact .inl same
          · exact .inr (.inr (.inl ⟨rest, top, rfl, marked⟩))
      | storeFunc =>
          cases stepped
          exact .inl rfl
      | scan =>
          simp only [threadCreateStep] at stepped
          repeat' split at stepped
          all_goals cases stepped
          all_goals exact .inl rfl
      | setSp | reserveEip | reserveRegs =>
          simp only [threadCreateStep] at stepped
          split at stepped <;> cases stepped
          exact .inl (Process.stateOf_setSp p _ t _)
    · rename_i pc rest top
      cases pc with
      | setFree =>
          simp only [threadExitStep] at stepped
          split at stepped <;> cases stepped
          rename_i current currentEq
          rcases stateOf_setState_cases p current t .free with same | ⟨rfl, marked⟩
          · exact .inl same
          · exact .inr (.inl ⟨rest, top, rfl, currentEq, marked⟩)
      | callSchedule | afterSchedule =>
          cases stepped
          exact .inl rfl
    · rename_i pc l rest top
      cases pc with
      | markNext =>
          simp only [threadScheduleStep] at stepped
          split at stepped <;> cases stepped
          rename_i n nextEq
          rcases stateOf_setState_cases p n t .running with same | ⟨rfl, marked⟩
          · exact .inl same
          · exact .inr (.inr (.inr (.inr (.inr
              (.inl ⟨l, rest, top, nextEq, marked⟩)))))
      | markCurrent =>
          simp only [threadScheduleStep] at stepped
          split at stepped <;> cases stepped
          rename_i c saveEq
          rcases stateOf_setState_cases p c t .runnable with same | ⟨rfl, marked⟩
          · exact .inl same
          · exact .inr (.inr (.inr (.inr (.inr
              (.inr ⟨l, rest, top, saveEq, marked⟩)))))
      | switch =>
          obtain ⟨_, _, _, _, _, _, states, _⟩ := threadSwitch_eq_some stepped
          exact .inl (states t)
      | save | setNext | finish =>
          cases stepped
          exact .inl rfl
      | scan | compare | take | choose | testCurrent | noSwitch =>
          simp only [threadScheduleStep] at stepped
          repeat' split at stepped
          all_goals cases stepped
          all_goals exact .inl rfl
    · cases stepped

/-- Where the process ends. -/
theorem step_exited {p next : Process} {label : Label}
    (stepped : step p label = some next) (exited : next.exited = true) :
    next = { p with exited := true } ∧
      ((∃ rest, p.stack = .threadExit .afterSchedule :: rest) ∨
        ∃ l rest, p.stack = .threadSchedule .noSwitch l :: rest ∧
          ∀ c, l.currentSave = some c → p.stateOf c = .free) := by
  have live := not_exited_of_step stepped
  have contradiction {q : Process} (same : q.exited = p.exited)
      (ended : q.exited = true) : False := by
    rw [same, live] at ended
    cases ended
  unfold step at stepped
  split at stepped
  · cases stepped
  · split at stepped
    · split at stepped <;> cases stepped
      exact (contradiction rfl exited).elim
    · cases stepped
      exact (contradiction rfl exited).elim
    · cases stepped
      exact (contradiction rfl exited).elim
    · cases stepped
      exact (contradiction rfl exited).elim
    · cases stepped
      exact (contradiction rfl exited).elim
    · rename_i pc rest top
      cases pc <;> simp only [threadInitStep] at stepped
      all_goals repeat' split at stepped
      all_goals cases stepped
      all_goals exact (contradiction rfl exited).elim
    · rename_i pc u rest top
      cases pc <;> simp only [threadCreateStep] at stepped
      all_goals repeat' split at stepped
      all_goals cases stepped
      all_goals exact (contradiction rfl exited).elim
    · rename_i pc rest top
      cases pc with
      | afterSchedule =>
          cases stepped
          exact ⟨rfl, .inl ⟨rest, top⟩⟩
      | setFree | callSchedule =>
          simp only [threadExitStep] at stepped
          repeat' split at stepped
          all_goals cases stepped
          all_goals exact (contradiction rfl exited).elim
    · rename_i pc l rest top
      cases pc with
      | noSwitch =>
          simp only [threadScheduleStep] at stepped
          split at stepped
          · rename_i c saveEq
            split at stepped <;> cases stepped
            · rename_i free
              refine ⟨rfl, .inr ⟨l, rest, top, fun c' same => ?_⟩⟩
              cases saveEq.symm.trans same
              exact free
            · exact (contradiction rfl exited).elim
          · rename_i saveEq
            cases stepped
            refine ⟨rfl, .inr ⟨l, rest, top, fun c same => ?_⟩⟩
            cases saveEq.symm.trans same
      | switch =>
          obtain ⟨_, _, _, _, _, _, _, same, _⟩ := threadSwitch_eq_some stepped
          exact (contradiction same exited).elim
      | _ =>
          simp only [threadScheduleStep] at stepped
          repeat' split at stepped
          all_goals cases stepped
          all_goals exact (contradiction rfl exited).elim
    · cases stepped

/-- A step outside the scheduler leaves it outside, or at the first statement
of a new activation. -/
theorem step_innermost_of_outside {p next : Process} {label : Label}
    {frame : Frame} {meets : SchedulePc → ScheduleLocals → Prop}
    (shape : baseFrame p.stack = some frame)
    (entered : label = .tick ∨ label = .schedule ∨
      label = .statement ∧ frame = .threadExit .callSchedule →
      meets .save .fresh)
    (stepped : step p label = some next) : InnermostMeets next meets := by
  unfold step at stepped
  split at stepped
  · cases stepped
  · rcases baseFrame_eq_some.mp shape with ⟨top, _⟩ | ⟨top, isCall⟩
    · rw [top] at stepped
      cases label with
      | tick =>
          simp only at stepped
          split at stepped <;> cases stepped
          exact .of_frame rfl (entered (.inl rfl))
      | statement =>
          cases stepped
          exact .of_outside (notSchedule_of_baseFrame shape)
      | create =>
          cases stepped
          exact .of_outside (by simp [Process.setStack])
      | schedule =>
          cases stepped
          exact .of_frame rfl (entered (.inr (.inl rfl)))
      | exit =>
          cases stepped
          exact .of_outside (by simp [Process.setStack])
    · rw [top] at stepped
      cases label with
      | tick =>
          simp only at stepped
          split at stepped <;> cases stepped
          exact .of_frame rfl (entered (.inl rfl))
      | statement =>
          cases frame with
          | user => exact absurd rfl isCall.1
          | threadInit pc =>
              cases pc with
              | register | setCurrent =>
                  cases stepped
                  exact .of_outside (by simp)
              | setRunning =>
                  simp only [threadInitStep] at stepped
                  split at stepped <;> cases stepped
                  exact .of_outside (by simp [Process.setStack])
              | clear i =>
                  simp only [threadInitStep] at stepped
                  split at stepped <;> cases stepped
                  all_goals exact .of_outside (by simp [Process.setStack])
          | threadCreate pc t =>
              cases pc with
              | storeFunc =>
                  cases stepped
                  exact .of_outside (by simp [Process.setStack])
              | scan =>
                  simp only [threadCreateStep] at stepped
                  repeat' split at stepped
                  all_goals cases stepped
                  all_goals exact .of_outside (by simp [Process.setStack])
              | setSp | reserveEip | reserveRegs | setState =>
                  simp only [threadCreateStep] at stepped
                  split at stepped <;> cases stepped
                  exact .of_outside (by simp [Process.setStack])
          | threadExit pc =>
              cases pc with
              | setFree =>
                  simp only [threadExitStep] at stepped
                  split at stepped <;> cases stepped
                  exact .of_outside (by simp [Process.setStack])
              | callSchedule =>
                  cases stepped
                  exact .of_frame rfl
                    (entered (.inr (.inr ⟨rfl, rfl⟩)))
              | afterSchedule =>
                  cases stepped
                  exact .of_outside (by simp [top])
          | threadSchedule pc l => exact absurd rfl (isCall.2 pc l)
      | create | schedule | exit =>
          cases frame <;> first
            | exact absurd rfl isCall.1
            | cases stepped

theorem threadScheduleStep_scanOk {p next : Process} {pc : SchedulePc}
    {l : ScheduleLocals} {rest : List Frame} {frame : Frame}
    (saved : ∀ t frames, (p.allThread t).sp = some frames → SavedOk t frames)
    (shape : baseFrame rest = some frame) (table : ScheduleOk p l frame pc)
    (scan : ScanOk p l pc) (top : p.stack = .threadSchedule pc l :: rest)
    (stepped : threadScheduleStep p rest l pc = some next) :
    InnermostMeets next fun pc l => ScanOk next l pc := by
  cases pc with
  | save =>
      cases stepped
      exact .of_frame rfl fun u below => absurd below (Nat.not_lt_zero _)
  | scan =>
      simp only [threadScheduleStep] at stepped
      split at stepped <;> cases stepped
      · exact .of_frame rfl scan
      · rename_i ended
        refine .of_frame rfl ⟨fun n found => ?_, fun _ u => ?_⟩
        · rw [table.2.2] at found
          cases found
        · exact scan u (lt_of_lt_of_le u.isLt (Nat.le_of_not_lt ended))
  | compare =>
      simp only [threadScheduleStep] at stepped
      split at stepped
      · rename_i inTable
        split at stepped <;> cases stepped
        · rename_i test
          refine .of_frame rfl fun _ => ⟨⟨test.1, ?_⟩, fun u below => ?_⟩
          · exact table.2.1 ▸ test.2
          · exact scan u below
        · rename_i skipped
          refine .of_frame rfl fun u below => ?_
          rcases Nat.lt_succ_iff_lt_or_eq.mp below with before | here
          · exact scan u before
          · have same : u = ⟨l.i, inTable⟩ := Fin.ext here
            subst same
            rintro ⟨runnable, other⟩
            exact skipped ⟨runnable, table.2.1 ▸ other⟩
      · cases stepped
  | take =>
      simp only [threadScheduleStep] at stepped
      split at stepped <;> cases stepped
      rename_i inTable
      refine .of_frame rfl ⟨fun n found => ?_, fun missing => ?_⟩
      · cases found
        exact scan inTable
      · cases missing
  | choose =>
      cases found : l.foundNext with
      | none =>
          simp only [threadScheduleStep, found] at stepped
          cases stepped
          exact .of_frame rfl (scan.2 found)
      | some n =>
          simp only [threadScheduleStep, found] at stepped
          cases stepped
          exact .of_frame rfl scan.1
  | setNext =>
      cases stepped
      exact .of_frame rfl scan
  | markNext =>
      simp only [threadScheduleStep] at stepped
      split at stepped <;> cases stepped
      exact .of_frame rfl trivial
  | testCurrent =>
      simp only [threadScheduleStep] at stepped
      repeat' split at stepped
      all_goals cases stepped
      all_goals exact .of_frame rfl trivial
  | markCurrent =>
      simp only [threadScheduleStep] at stepped
      split at stepped <;> cases stepped
      exact .of_frame rfl trivial
  | switch =>
      obtain ⟨n, c, handing, _⟩ := table
      obtain ⟨c', n', currentEq, nextEq, _, _, _, _, resumed⟩ :=
        threadSwitch_eq_some stepped
      cases currentEq.symm.trans handing.currentEq
      cases nextEq.symm.trans handing.nextEq
      rw [Process.sp_setSp, if_neg handing.distinct] at resumed
      exact .of_savedOk (saved n next.stack resumed) fun _ => trivial
  | noSwitch =>
      simp only [threadScheduleStep] at stepped
      split at stepped
      · split at stepped <;> cases stepped
        · exact .of_frame top scan
        · exact .of_frame rfl trivial
      · cases stepped
        exact .of_frame top scan
  | finish =>
      cases stepped
      exact .of_outside (notSchedule_of_baseFrame shape)

/-- One step of a run whose ticks are taken outside the scheduler. -/
theorem step_scannedOk {p next : Process} {label : Label} (ok : ScannedOk p)
    (tickOutside : TickOutside p label) (stepped : step p label = some next)
    (live : next.exited = false) : ScannedOk next := by
  refine ⟨step_tableOk ok.table tickOutside stepped live, ?_⟩
  have running := ok.table.live
  generalize top : p.stack = stack at running
  cases running with
  | @base _ frame shape =>
      exact step_innermost_of_outside (top ▸ shape) (fun _ => trivial) stepped
  | @schedule pc l rest frame shape inside owner =>
      cases label with
      | tick => exact absurd ⟨pc, l, rest, top⟩ (tickOutside rfl)
      | statement =>
          simp only [step, not_exited_of_step stepped, top] at stepped
          exact threadScheduleStep_scanOk ok.table.saved shape inside
            (ok.scan pc l rest top) top stepped
      | create | schedule | exit => simp [step, top] at stepped

/-- In a live process, what the table says about the innermost activation of
`thread_schedule`. -/
theorem scheduleOk_of_top {p : Process} {pc : SchedulePc} {l : ScheduleLocals}
    {rest : List Frame} (table : TableOk p)
    (top : p.stack = .threadSchedule pc l :: rest) :
    ∃ frame, baseFrame rest = some frame ∧ ScheduleOk p l frame pc := by
  have live := table.live
  rw [top] at live
  cases live with
  | @base _ frame shape =>
      exact absurd rfl (notSchedule_of_baseFrame shape pc l rest)
  | @schedule pc l rest frame shape inside owner => exact ⟨frame, shape, inside⟩

/-- A statement of `thread_schedule`. -/
theorem scheduleStep_of_step {p next : Process} {label : Label}
    {pc : SchedulePc} {l : ScheduleLocals} {rest : List Frame}
    (top : p.stack = .threadSchedule pc l :: rest)
    (tickOutside : TickOutside p label) (stepped : step p label = some next) :
    label = .statement ∧ threadScheduleStep p rest l pc = some next := by
  have live := not_exited_of_step stepped
  cases label with
  | tick => exact absurd ⟨pc, l, rest, top⟩ (tickOutside rfl)
  | statement =>
      simp only [step, live, top] at stepped
      exact ⟨rfl, stepped⟩
  | create | schedule | exit => simp [step, top] at stepped

theorem start_scannedOk : ScannedOk start :=
  ⟨start_tableOk, .of_outside (by simp [start])⟩

end Xv6.Uthread
