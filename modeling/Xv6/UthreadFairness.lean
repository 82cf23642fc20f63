import Xv6.UthreadScan

/-!
# Which runnable thread comes next

`thread_schedule` scans the table from its first entry on every call, so the
thread that it finds is the first runnable one of the table and not the first
one after the caller.  As long as no call finds runnable threads on both sides
of the caller, the two agree, and a thread that stays runnable is passed over
at most once by each other thread.
-/

namespace Xv6.Uthread

open LabelledRuns

/-- The threads that a run switches to, in order. -/
def switches (p : Process) : List Label → List ThreadIndex
  | [] => []
  | label :: labels =>
      match step p label with
      | some next => (switchedTo p label).toList ++ switches next labels
      | none => []

/-- The thread is `RUNNABLE` in every state of the run. -/
def RunnableThroughout (t : ThreadIndex) (p : Process) (labels : List Label) :
    Prop :=
  ∀ first middle, first <+: labels → run step p first = some middle →
    middle.stateOf t = .runnable

/-- In every interval of the run in which a thread is `RUNNABLE` throughout,
no thread is switched to twice. -/
def BoundedBypass (labels : List Label) : Prop :=
  ∀ before interval after p t, labels = before ++ interval ++ after →
    run step start before = some p → RunnableThroughout t p interval →
    (switches p interval).Nodup

/-- No two runnable threads stand on both sides of the running one. -/
def OneSided (p : Process) : Prop :=
  ∀ c, p.currentThread = some c →
    (∀ t, t < c → p.stateOf t ≠ .runnable) ∨
      ∀ t, c < t → p.stateOf t ≠ .runnable

instance (p : Process) : Decidable (OneSided p) :=
  inferInstanceAs (Decidable (∀ c, p.currentThread = some c →
    (∀ t, t < c → p.stateOf t ≠ .runnable) ∨
      ∀ t, c < t → p.stateOf t ≠ .runnable))

/-- A call of `thread_schedule` begins only when the runnable threads are all
on one side of the caller. -/
def CallsOneSided (p : Process) : Label → Prop
  | .statement => (p.stack.head?.any fun frame =>
      match frame with
      | .threadSchedule .save _ => true
      | _ => false) = true → OneSided p
  | _ => True

instance (p : Process) (label : Label) : Decidable (CallsOneSided p label) :=
  match label with
  | .statement => inferInstanceAs (Decidable (_ → _))
  | .tick | .create | .schedule | .exit => isTrue trivial

/-- How many threads a scan that starts after `c` meets before it meets
`t`. -/
def gap (t c : ThreadIndex) : Nat :=
  (t.val + (maxThread - 1) - c.val) % maxThread

/-- The gap from the running thread, and one more than any gap when there is
none. -/
def rank (t : ThreadIndex) : Option ThreadIndex → Nat
  | none => maxThread
  | some c => gap t c

theorem gap_lt_gap : ∀ t c n : ThreadIndex, n ≠ c →
    (t ≠ c → n < t ∧ ¬ (n < c ∧ c < t)) → gap t n < gap t c := by
  decide

theorem rank_lt_maxThread (t c : ThreadIndex) : rank t (some c) < maxThread :=
  Nat.mod_lt _ (by decide)

/-- Every thread that is runnable now is nearer to the next thread than to the
running one. -/
def Nearer (p : Process) (next : Option ThreadIndex) : Prop :=
  ∀ n, next = some n → ∀ t, p.stateOf t = .runnable →
    rank t (some n) < rank t p.currentThread

/-- What an activation of `thread_schedule` that began with the runnable
threads on one side of the caller knows at each of its statements. -/
def FairScan (p : Process) : SchedulePc → Prop
  | .save | .noSwitch | .finish => True
  | .scan | .compare | .take | .choose | .setNext | .markNext => OneSided p
  | .testCurrent | .markCurrent | .switch => Nearer p p.nextThread

/-- The first candidate lies between the caller and every runnable thread. -/
theorem nearer_of_firstCandidate {p : Process} {n : ThreadIndex}
    (oneSided : OneSided p) (first : FirstCandidate p n) (t : ThreadIndex)
    (other : t ≠ n) (runnable : p.stateOf t = .runnable) :
    rank t (some n) < rank t p.currentThread := by
  cases current : p.currentThread with
  | none => exact rank_lt_maxThread t n
  | some c =>
      apply gap_lt_gap t c n
      · rintro rfl
        exact first.1.2 current.symm
      · intro notCaller
        have candidate : Candidate p t := by
          refine ⟨runnable, fun same => notCaller ?_⟩
          exact Option.some.inj (same.trans current)
        refine ⟨?_, fun ⟨below, above⟩ => ?_⟩
        · rcases lt_trichotomy n t with lt | eq | gt
          · exact lt
          · exact absurd eq.symm other
          · exact absurd candidate (first.2 t gt)
        · rcases oneSided c current with noneBelow | noneAbove
          · exact noneBelow n below first.1.1
          · exact noneAbove t above runnable

/-- One statement of an uninterrupted `thread_schedule`. -/
theorem threadScheduleStep_fairScan {p next : Process} {pc : SchedulePc}
    {l : ScheduleLocals} {rest : List Frame} {frame : Frame}
    (saved : ∀ t frames, (p.allThread t).sp = some frames → SavedOk t frames)
    (shape : baseFrame rest = some frame) (table : ScheduleOk p l frame pc)
    (scan : ScanOk p l pc) (fair : FairScan p pc)
    (oneSided : pc = .save → OneSided p)
    (top : p.stack = .threadSchedule pc l :: rest)
    (stepped : threadScheduleStep p rest l pc = some next) :
    InnermostMeets next fun pc _ => FairScan next pc := by
  cases pc with
  | save =>
      cases stepped
      exact .of_frame rfl (oneSided rfl)
  | scan | compare | take =>
      simp only [threadScheduleStep] at stepped
      repeat' split at stepped
      all_goals cases stepped
      all_goals exact .of_frame rfl fair
  | choose =>
      simp only [threadScheduleStep] at stepped
      split at stepped <;> cases stepped
      · exact .of_frame rfl fair
      · exact .of_frame rfl trivial
  | setNext =>
      cases stepped
      exact .of_frame rfl fair
  | markNext =>
      obtain ⟨_, _, n, nextEq, _⟩ := table
      simp only [threadScheduleStep, nextEq] at stepped
      cases stepped
      refine .of_frame rfl fun m found t runnable => ?_
      cases nextEq.symm.trans found
      change (p.setState n .running).stateOf t = .runnable at runnable
      rw [Process.stateOf_setState] at runnable
      split at runnable
      · cases runnable
      · rename_i other
        exact nearer_of_firstCandidate fair (scan n nextEq) t other runnable
  | testCurrent =>
      simp only [threadScheduleStep] at stepped
      repeat' split at stepped
      all_goals cases stepped
      all_goals exact .of_frame rfl fair
  | markCurrent =>
      obtain ⟨currentSave, n, c, handing⟩ := table
      simp only [threadScheduleStep, currentSave, handing.currentEq] at stepped
      cases stepped
      refine .of_frame rfl fun m found t runnable => ?_
      change (p.setState c .runnable).stateOf t = .runnable at runnable
      rw [Process.stateOf_setState] at runnable
      split at runnable
      · rename_i same
        subst same
        cases handing.nextEq.symm.trans found
        change rank t (some n) < rank t p.currentThread
        rw [handing.currentEq]
        exact gap_lt_gap t t n handing.distinct (absurd rfl)
      · exact fair m found t runnable
  | switch =>
      obtain ⟨n, c, handing, _⟩ := table
      obtain ⟨c', n', currentEq, nextEq, _, _, _, _, resumed⟩ :=
        threadSwitch_eq_some stepped
      cases currentEq.symm.trans handing.currentEq
      cases nextEq.symm.trans handing.nextEq
      rw [Process.sp_setSp, if_neg handing.distinct] at resumed
      exact .of_savedOk (saved n next.stack resumed) fun _ => trivial
  | noSwitch =>
      simp only [threadScheduleStep] at stepped
      split at stepped
      · split at stepped <;> cases stepped
        · exact .of_frame top trivial
        · exact .of_frame rfl trivial
      · cases stepped
        exact .of_frame top trivial
  | finish =>
      cases stepped
      exact .of_outside (notSchedule_of_baseFrame shape)

/-- A step brings the running thread no farther from a runnable one, and a
switch brings it nearer. -/
theorem step_rank {p next : Process} {label : Label} {t : ThreadIndex}
    (table : TableOk p) (fair : InnermostMeets p fun pc _ => FairScan p pc)
    (runnable : p.stateOf t = .runnable) (stepped : step p label = some next) :
    rank t next.currentThread ≤ rank t p.currentThread ∧
      ∀ u, switchedTo p label = some u → next.currentThread = some u ∧
        rank t (some u) < rank t p.currentThread := by
  rcases step_currentThread stepped with
    ⟨same, notSwitch⟩ | ⟨rest, top, notSwitch⟩ | ⟨l, rest, rfl, top, switched⟩
  · rw [same]
    exact ⟨le_refl _, fun u switch => by simp [notSwitch] at switch⟩
  · exfalso
    have live := table.live
    rw [top] at live
    cases live with
    | @base _ frame shape base returned owner =>
        rcases baseFrame_eq_some.mp shape with ⟨same, _⟩ | ⟨same, _⟩
        · cases same
        · cases same
          simp [base.2 t] at runnable
  · obtain ⟨c, n, currentEq, nextEq, nextCurrent, _⟩ :=
      threadSwitch_eq_some switched
    have nearer := fair .switch l rest top n nextEq t runnable
    rw [nextCurrent]
    refine ⟨le_of_lt nearer, fun u switch => ?_⟩
    have : u = n := by
      simp only [switchedTo, top, nextEq, Option.some.injEq] at switch
      exact switch.symm
    subst this
    exact ⟨rfl, nearer⟩

/-- The guard of the runs below. -/
def RoundRobin (p : Process) (label : Label) : Prop :=
  TickOutside p label ∧ CallsOneSided p label

instance (p : Process) (label : Label) : Decidable (RoundRobin p label) :=
  inferInstanceAs (Decidable (_ ∧ _))

/-- The invariant of live processes in these runs. -/
structure ScheduledOk (p : Process) : Prop where
  scanned : ScannedOk p
  fair : InnermostMeets p fun pc _ => FairScan p pc

theorem step_scheduledOk {p next : Process} {label : Label}
    (ok : ScheduledOk p) (guard : RoundRobin p label)
    (stepped : step p label = some next) (live : next.exited = false) :
    ScheduledOk next := by
  refine ⟨step_scannedOk ok.scanned guard.1 stepped live, ?_⟩
  have running := ok.scanned.table.live
  generalize top : p.stack = stack at running
  cases running with
  | @base _ frame shape =>
      exact step_innermost_of_outside (top ▸ shape) (fun _ => trivial) stepped
  | @schedule pc l rest frame shape inside owner =>
      cases label with
      | tick => exact absurd ⟨pc, l, rest, top⟩ (guard.1 rfl)
      | statement =>
          simp only [step, not_exited_of_step stepped, top] at stepped
          refine threadScheduleStep_fairScan ok.scanned.table.saved shape inside
            (ok.scanned.scan pc l rest top) (ok.fair pc l rest top) ?_ top stepped
          rintro rfl
          exact guard.2 (by simp [top])
      | create | schedule | exit => simp [step, top] at stepped

/-- While a thread stays runnable, each switch brings the running thread
nearer to it. -/
theorem switches_pairwise {p last : Process} {t : ThreadIndex}
    {labels : List Label} (ok : p.exited = false → ScheduledOk p)
    (meets : RunMeets step RoundRobin p labels)
    (ran : run step p labels = some last)
    (runnable : RunnableThroughout t p labels) :
    (switches p labels).Pairwise (fun u v => gap t v < gap t u) ∧
      ∀ u ∈ switches p labels, gap t u < rank t p.currentThread := by
  induction labels generalizing p with
  | nil => exact ⟨List.Pairwise.nil, by simp [switches]⟩
  | cons label labels ih =>
      obtain ⟨next, stepped, rest⟩ := run_cons_eq_some.mp ran
      have scheduled := ok (not_exited_of_step stepped)
      have now : p.stateOf t = .runnable :=
        runnable [] p (List.nil_prefix) rfl
      have later : RunnableThroughout t next labels := by
        intro first middle before reached
        refine runnable (label :: first) middle ?_ ?_
        · exact List.cons_prefix_cons.mpr ⟨rfl, before⟩
        · exact run_cons_eq_some.mpr ⟨next, stepped, reached⟩
      obtain ⟨pairwise, bounded⟩ := ih (step_scheduledOk scheduled meets.1 stepped)
        (meets.2 next stepped) rest later
      obtain ⟨noFarther, switched⟩ := step_rank scheduled.scanned.table scheduled.fair now stepped
      simp only [switches, stepped]
      cases target : switchedTo p label with
      | none =>
          refine ⟨by simpa using pairwise, fun u member => ?_⟩
          exact lt_of_lt_of_le (bounded u (by simpa using member)) noFarther
      | some u =>
          obtain ⟨current, nearer⟩ := switched u target
          rw [current] at bounded
          refine ⟨?_, fun v member => ?_⟩
          · exact List.pairwise_cons.mpr ⟨bounded, pairwise⟩
          · rcases List.mem_cons.mp member with rfl | member
            · exact nearer
            · exact lt_trans (bounded v member) nearer

/-- In a run whose calls of the scheduler all find the runnable threads on one
side of the caller, no runnable thread is passed over twice by the same
thread. -/
theorem boundedBypass_of_oneSided {labels : List Label} {p : Process}
    (ran : run step start labels = some p)
    (meets : RunMeets step RoundRobin start labels) : BoundedBypass labels := by
  intro before interval after q t split reached runnable
  subst split
  rw [List.append_assoc] at ran meets
  obtain ⟨meetsBefore, meetsAfter⟩ := (runMeets_append reached).mp meets
  obtain ⟨q', reached', rest⟩ := run_append_eq_some.mp ran
  cases reached.symm.trans reached'
  obtain ⟨last, ranInterval, _⟩ := run_append_eq_some.mp rest
  have initially : start.exited = false → ScheduledOk start :=
    fun _ => ⟨start_scannedOk, .of_outside (by simp [start])⟩
  have preserved {p label next} (holds : p.exited = false → ScheduledOk p)
      (guard : RoundRobin p label) (stepped : step p label = some next) :
      next.exited = false → ScheduledOk next :=
    step_scheduledOk (holds (not_exited_of_step stepped)) guard stepped
  have ok := invariant_of_runMeets preserved initially meetsBefore reached
  obtain ⟨pairwise, _⟩ := switches_pairwise ok
    ((runMeets_append ranInterval).mp meetsAfter).1 ranInterval runnable
  exact pairwise.imp fun nearer same => by simp [same] at nearer

/-! ## Two runs -/

theorem runnableThroughout_of_meets {t : ThreadIndex} {p : Process}
    {labels : List Label}
    (meets : RunMeets step (fun q _ => q.stateOf t = .runnable) p labels)
    (last : ∀ q, run step p labels = some q → q.stateOf t = .runnable) :
    RunnableThroughout t p labels := by
  induction labels generalizing p with
  | nil =>
      intro first middle before reached
      rw [List.prefix_nil.mp before] at reached
      exact last middle reached
  | cons label labels ih =>
      intro first middle before reached
      cases first with
      | nil =>
          cases reached
          exact meets.1
      | cons head tail =>
          obtain ⟨rfl, shorter⟩ := List.cons_prefix_cons.mp before
          obtain ⟨next, stepped, reached⟩ := run_cons_eq_some.mp reached
          refine ih (meets.2 next stepped) (fun q ran => ?_) tail middle shorter
            reached
          exact last q (run_cons_eq_some.mpr ⟨next, stepped, ran⟩)

/-- `main` calls the scheduler, thread 1 is interrupted, and `main` is
interrupted: control goes to threads 1, 0 and 1. -/
def alternate : List Label :=
  (Label.schedule :: List.replicate 12 Label.statement) ++
    (Label.tick :: List.replicate 11 Label.statement) ++
    (Label.tick :: List.replicate 13 Label.statement)

/-- Thread 2 stays runnable while thread 1 is switched to twice. -/
theorem thread_two_passed_over_twice :
    RunMeets step TickOutside start (createTwo ++ alternate) ∧
      (run step start (createTwo ++ alternate)).isSome ∧
      ¬ BoundedBypass (createTwo ++ alternate) := by
  refine ⟨by decide +kernel, by decide +kernel, fun bounded => ?_⟩
  let p := (run step start createTwo).get (by decide)
  have throughout : RunnableThroughout 2 p alternate := by
    apply runnableThroughout_of_meets
    · decide +kernel
    · intro q ran
      have last : (run step p alternate).map (·.stateOf 2) = some .runnable := by
        decide +kernel
      simpa [ran] using last
  have nodup := bounded createTwo alternate [] p 2 (by simp) (by simp [p])
    throughout
  exact absurd nodup (by decide +kernel)

/-- `thread_init`, then one `thread_create` call by `main`. -/
def createOne : List Label :=
  List.replicate 7 Label.statement ++ (Label.create :: List.replicate 7 Label.statement)

theorem one_thread_boundedBypass :
    RunMeets step RoundRobin start (createOne ++ alternate) ∧
      (run step start (createOne ++ alternate)).isSome ∧
      BoundedBypass (createOne ++ alternate) := by
  have meets : RunMeets step RoundRobin start (createOne ++ alternate) := by
    decide +kernel
  have ran : (run step start (createOne ++ alternate)).isSome := by
    decide +kernel
  exact ⟨meets, ran, boundedBypass_of_oneSided (Option.some_get ran).symm meets⟩

end Xv6.Uthread
