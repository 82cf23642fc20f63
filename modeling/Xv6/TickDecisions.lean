import Xv6.TrapModel

/-!
# Scheduling decisions of one tick

How often one timer interrupt calls `yield` and `exit`.  The timer case has a
`yield` of its own, which the redirect skips, but the common tail behind the
`switch` yields again: the process gives up the CPU once too often unless it exits
in the timer case.
-/

namespace Xv6

namespace TrapRun

def yields (r : TrapRun) : Nat :=
  r.calls.count .yield

def exits (r : TrapRun) : Nat :=
  r.calls.count .exit

/-- The process was interrupted in user mode. -/
def InUser (r : TrapRun) : Prop :=
  r.tf.cs &&& 3 = dplUser

instance (r : TrapRun) : Decidable r.InUser :=
  inferInstanceAs (Decidable (_ = _))

/-- The redirect to the user scheduler is taken. -/
def Redirected (userMapped : Nat → Bool) (r : TrapRun) : Prop :=
  r.wantsRedirect.isSome ∧ (copyoutWord userMapped r.mem (r.tf.esp - 4) r.tf.eip).isSome

instance (userMapped : Nat → Bool) (r : TrapRun) : Decidable (r.Redirected userMapped) :=
  inferInstanceAs (Decidable (_ ∧ _))

/-- The timer interrupt before it is handled. -/
structure AtTick (r : TrapRun) : Prop where
  trapno : r.tf.trapno = timerTrapno
  calls : r.calls = []
  exited : r.exited = false

/-- One scheduling decision is made for a tick: a `RUNNING` process yields once,
and not at all if it is redirected, and no process exits twice. -/
def DecidesOnce (userMapped : Nat → Bool) (r last : TrapRun) : Prop :=
  (∀ p, r.proc = some p → p.state = .running →
    last.yields = if r.Redirected userMapped then 0 else 1) ∧ last.exits ≤ 1

/-- The process exits in the timer case: it was interrupted in user mode, and it
has been killed, or `copyout` fails, or it is killed while it yields. -/
def ExitsEarly (killedFirst : Bool) (userMapped : Nat → Bool) (r : TrapRun) : Prop :=
  ∀ p, r.proc = some p → p.state = .running → r.InUser ∧
    (p.killed = true ∨ ¬ r.Redirected userMapped ∧ (p.scheduler ≠ 0 ∨ killedFirst = true))

section Tail

variable {r : TrapRun} {killed : Bool}

theorem commonTail_of_exited (exited : r.exited = true) : r.commonTail killed = r := by
  unfold commonTail exitIfKilled yieldIfRunning
  simp only [exited, if_true]

theorem exitIfKilled_of_killed (running : r.exited = false) (inUser : r.killedInUser = true) :
    r.exitIfKilled = r.exit := by
  unfold exitIfKilled
  simp only [running, inUser, if_true, Bool.false_eq_true, if_false]

theorem exitIfKilled_of_not (lives : r.killedInUser = false) : r.exitIfKilled = r := by
  unfold exitIfKilled
  simp only [lives, Bool.false_eq_true, if_false, ite_self]

theorem exits_exitIfKilled (r : TrapRun) : r.exitIfKilled.exits ≤ r.exits + 1 := by
  unfold exitIfKilled
  split
  · exact Nat.le_succ _
  · split
    · simp [exits, exit, call]
    · exact Nat.le_succ _

theorem yields_exitIfKilled (r : TrapRun) : r.exitIfKilled.yields = r.yields := by
  unfold exitIfKilled
  split
  · rfl
  · split
    · simp [yields, exit, call]
    · rfl

theorem yieldIfRunning_of_running (running : r.exited = false) (atTick : r.runningAtTick = true) :
    r.yieldIfRunning killed = r.yield killed := by
  unfold yieldIfRunning
  simp only [running, atTick, if_true, Bool.false_eq_true, if_false]

theorem yields_yield (r : TrapRun) : (r.yield killed).yields = r.yields + 1 := by
  simp [yields, yield, call]

theorem exits_yield (r : TrapRun) : (r.yield killed).exits = r.exits := by
  simp [exits, yield, call]

/-- The common tail makes a process that is still there yield. -/
theorem commonTail_of_running (running : r.exited = false) (lives : r.killedInUser = false)
    (atTick : r.runningAtTick = true) :
    (r.commonTail killed).yields = r.yields + 1 ∧ (r.commonTail killed).exits ≤ r.exits + 1 := by
  unfold commonTail
  rw [exitIfKilled_of_not lives, yieldIfRunning_of_running running atTick]
  refine ⟨?_, ?_⟩
  · rw [yields_exitIfKilled, yields_yield]
  · have last := exits_exitIfKilled (r.yield killed)
    rw [exits_yield] at last
    exact last

/-- `exit` is called when the process has not exited. -/
def ExitOnce (r : TrapRun) : Prop :=
  r.exits = if r.exited then 1 else 0

theorem ExitOnce.exitIfKilled (once : ExitOnce r) : ExitOnce r.exitIfKilled := by
  unfold TrapRun.exitIfKilled
  split
  · exact once
  case isFalse running =>
    split
    · have none : r.exits = 0 := by
        rw [once, if_neg running]
      change (r.calls ++ [TrapCall.exit]).count .exit = 1
      rw [List.count_append]
      change r.exits + 1 = 1
      rw [none]
    · exact once

theorem ExitOnce.yieldIfRunning (once : ExitOnce r) : ExitOnce (r.yieldIfRunning killed) := by
  unfold TrapRun.yieldIfRunning
  split
  · exact once
  · split
    · unfold ExitOnce
      rw [exits_yield]
      exact once
    · exact once

theorem ExitOnce.commonTail (once : ExitOnce r) : ExitOnce (r.commonTail killed) :=
  once.exitIfKilled.yieldIfRunning.exitIfKilled

end Tail

section Tick

variable {r : TrapRun} {cpu0 killedFirst killedSecond : Bool} {userMapped : Nat → Bool}

/-- The calls before the timer case looks at the process. -/
def acknowledge (cpu0 : Bool) (r : TrapRun) : TrapRun :=
  (if cpu0 then r.call .wakeupTicks else r).call .lapiceoi

theorem acknowledge_eq (cpu0 : Bool) (r : TrapRun) :
    ∃ calls, r.acknowledge cpu0 = { r with calls := r.calls ++ calls } ∧
      calls.count .yield = 0 ∧ calls.count .exit = 0 := by
  cases cpu0 with
  | true => exact ⟨[.wakeupTicks, .lapiceoi], by simp [acknowledge, call], by decide, by decide⟩
  | false => exact ⟨[.lapiceoi], rfl, by decide, by decide⟩

/-- The timer case when the redirect is taken. -/
theorem timerCase_of_redirected {p : TrapProc} {mem : UserMemory}
    (redirect : r.wantsRedirect = some p)
    (copied : copyoutWord userMapped r.mem (r.tf.esp - 4) r.tf.eip = some mem) :
    r.timerCase cpu0 killedFirst userMapped = exitIfKilled
      { r.acknowledge cpu0 with
        mem := mem, tf := { r.tf with esp := r.tf.esp - 4, eip := p.scheduler } } := by
  have redirected (calls : List TrapCall) :
      ({ r with calls := calls } : TrapRun).wantsRedirect = some p := redirect
  cases cpu0 with
  | true => simp only [timerCase, acknowledge, call, redirected, copied, if_true]
  | false => simp only [timerCase, acknowledge, call, redirected, copied, if_false,
      Bool.false_eq_true]

theorem wantsRedirect_eq_some {p : TrapProc} :
    r.wantsRedirect = some p ↔
      r.proc = some p ∧ p.state = .running ∧ r.InUser ∧ p.scheduler ≠ 0 := by
  unfold wantsRedirect
  split
  case h_1 q isProc =>
    split
    case isTrue wants =>
      rw [isProc, Option.some.injEq]
      refine ⟨?_, fun wanted => wanted.1⟩
      rintro rfl
      exact ⟨rfl, wants⟩
    case isFalse not =>
      refine ⟨nofun, ?_⟩
      rintro ⟨isSome, wants⟩
      rw [isProc, Option.some.injEq] at isSome
      subst isSome
      exact absurd wants not
  case h_2 none =>
    rw [none]
    exact ⟨nofun, nofun⟩

/-- The timer case when it is not: a process whose `copyout` failed is killed. -/
theorem timerCase_of_not (not : ¬ r.Redirected userMapped) :
    r.timerCase cpu0 killedFirst userMapped =
      (yieldIfRunning killedFirst { r.acknowledge cpu0 with proc := r.proc.map fun p =>
        { p with killed := p.killed || r.wantsRedirect.isSome } }).exitIfKilled := by
  have wants (calls : List TrapCall) :
      ({ r with calls := calls } : TrapRun).wantsRedirect = r.wantsRedirect := rfl
  cases redirect : r.wantsRedirect with
  | none =>
      have same : r.proc.map (fun p => { p with killed := p.killed || false }) = r.proc := by
        cases r.proc with
        | none => rfl
        | some p => simp
      rw [Option.isSome_none, same]
      cases cpu0 with
      | true => simp only [timerCase, acknowledge, call, wants, redirect, if_true]
      | false => simp only [timerCase, acknowledge, call, wants, redirect, if_false,
          Bool.false_eq_true]
  | some p =>
      have failed : copyoutWord userMapped r.mem (r.tf.esp - 4) r.tf.eip = none := by
        cases copied : copyoutWord userMapped r.mem (r.tf.esp - 4) r.tf.eip with
        | none => rfl
        | some mem =>
            refine absurd ⟨?_, ?_⟩ not
            · rw [redirect]
              rfl
            · rw [copied]
              rfl
      have isProc := (wantsRedirect_eq_some.mp redirect).1
      rw [isProc, Option.isSome_some, Option.map_some, Bool.or_true]
      cases cpu0 with
      | true => simp only [timerCase, acknowledge, call, wants, redirect, failed, if_true]
      | false => simp only [timerCase, acknowledge, call, wants, redirect, failed, if_false,
          Bool.false_eq_true]

theorem exits_trapTimer (atTick : AtTick r) :
    (r.trapTimer cpu0 killedFirst killedSecond userMapped).exits ≤ 1 := by
  obtain ⟨calls, acknowledged, -, noExit⟩ := acknowledge_eq cpu0 r
  have first (mem : UserMemory) (tf : TrapFrame) (proc : Option TrapProc) :
      ExitOnce { r.acknowledge cpu0 with mem := mem, tf := tf, proc := proc } := by
    unfold ExitOnce exits
    rw [acknowledged]
    dsimp only
    rw [atTick.calls, List.nil_append, noExit, atTick.exited]
    rfl
  have once : ExitOnce (r.timerCase cpu0 killedFirst userMapped) := by
    by_cases redirected : r.Redirected userMapped
    · obtain ⟨p, redirect⟩ := Option.isSome_iff_exists.mp redirected.1
      obtain ⟨mem, copied⟩ := Option.isSome_iff_exists.mp redirected.2
      rw [timerCase_of_redirected redirect copied]
      exact (first mem _ _).exitIfKilled
    · rw [timerCase_of_not redirected]
      exact (first _ _ _).yieldIfRunning.exitIfKilled
  have last : ExitOnce (r.trapTimer cpu0 killedFirst killedSecond userMapped) := once.commonTail
  rw [last]
  split
  · exact Nat.le_refl 1
  · exact Nat.zero_le 1

/-- How often a redirected process yields. -/
theorem yields_of_redirected {p : TrapProc} (atTick : AtTick r) (isProc : r.proc = some p)
    (redirected : r.Redirected userMapped) :
    (r.trapTimer cpu0 killedFirst killedSecond userMapped).yields =
      if p.killed then 0 else 1 := by
  obtain ⟨q, redirect⟩ := Option.isSome_iff_exists.mp redirected.1
  obtain ⟨mem, copied⟩ := Option.isSome_iff_exists.mp redirected.2
  obtain ⟨isSome, running, inUser, -⟩ := wantsRedirect_eq_some.mp redirect
  rw [isProc, Option.some.injEq] at isSome
  subst isSome
  obtain ⟨calls, acknowledged, noYield, -⟩ := acknowledge_eq cpu0 r
  unfold trapTimer
  rw [timerCase_of_redirected redirect copied, acknowledged]
  generalize now : ({ r with
    calls := r.calls ++ calls, mem := mem,
    tf := { r.tf with esp := r.tf.esp - 4, eip := p.scheduler } } : TrapRun) = t
  have none : t.yields = 0 := by
    rw [← now, yields, atTick.calls, List.nil_append, noYield]
  have still : t.exited = false := by
    rw [← now]
    exact atTick.exited
  have inUser' : (r.tf.cs &&& 3 == dplUser) = true := beq_iff_eq.mpr inUser
  have killed : t.killedInUser = p.killed := by
    rw [← now]
    simp only [killedInUser, isProc, inUser', Bool.and_true]
  have tick : t.runningAtTick = true := by
    rw [← now]
    simp [runningAtTick, isProc, running, atTick.trapno]
  cases dead : p.killed with
  | true =>
      rw [exitIfKilled_of_killed still (killed.trans dead), commonTail_of_exited rfl]
      have same := yields_exitIfKilled t
      rw [exitIfKilled_of_killed still (killed.trans dead), none] at same
      exact same
  | false =>
      rw [exitIfKilled_of_not (killed.trans dead),
        (commonTail_of_running still (killed.trans dead) tick).1, none]
      rfl

/-- How often a process yields that is not redirected. -/
theorem yields_of_not_redirected {p : TrapProc} (atTick : AtTick r) (isProc : r.proc = some p)
    (running : p.state = .running) (not : ¬ r.Redirected userMapped) :
    (r.trapTimer cpu0 killedFirst killedSecond userMapped).yields =
      if r.InUser ∧ (p.killed = true ∨ p.scheduler ≠ 0 ∨ killedFirst = true) then 1 else 2 := by
  obtain ⟨calls, acknowledged, noYield, -⟩ := acknowledge_eq cpu0 r
  unfold trapTimer
  rw [timerCase_of_not not, acknowledged]
  generalize now : ({ r with
    calls := r.calls ++ calls, proc := r.proc.map fun p =>
      { p with killed := p.killed || r.wantsRedirect.isSome } } : TrapRun) = t
  have isProc' : t.proc = some { p with killed := p.killed || r.wantsRedirect.isSome } := by
    rw [← now, isProc]
    rfl
  have frame : t.tf = r.tf := by rw [← now]
  have none : t.yields = 0 := by
    rw [← now, yields, atTick.calls, List.nil_append, noYield]
  have still : t.exited = false := by
    rw [← now]
    exact atTick.exited
  have tick : t.runningAtTick = true := by
    simp [runningAtTick, isProc', running, frame, atTick.trapno]
  have tick' : (t.yield killedFirst).runningAtTick = true := by
    simp [runningAtTick, yield, call, isProc', frame, atTick.trapno]
  have once : (t.yield killedFirst).yields = 1 := by
    rw [yields_yield, none]
  have wants : r.wantsRedirect.isSome = true ↔ r.InUser ∧ p.scheduler ≠ 0 := by
    rw [Option.isSome_iff_exists]
    constructor
    · rintro ⟨q, redirect⟩
      obtain ⟨isSome, -, wanted⟩ := wantsRedirect_eq_some.mp redirect
      rw [isProc, Option.some.injEq] at isSome
      subst isSome
      exact wanted
    · intro wanted
      exact ⟨p, wantsRedirect_eq_some.mpr ⟨isProc, running, wanted⟩⟩
  have killed : (t.yield killedFirst).killedInUser = true ↔
      r.InUser ∧ (p.killed = true ∨ p.scheduler ≠ 0 ∨ killedFirst = true) := by
    have isKilled : (t.yield killedFirst).killedInUser = true ↔
        ((p.killed = true ∨ r.wantsRedirect.isSome = true) ∨ killedFirst = true) ∧ r.InUser := by
      simp [killedInUser, yield, call, isProc', frame, InUser]
    rw [isKilled, wants]
    by_cases user : r.InUser <;> simp [user, or_assoc]
  have still' : (t.yield killedFirst).exited = false := still
  rw [yieldIfRunning_of_running still tick]
  by_cases dead : (t.yield killedFirst).killedInUser = true
  · rw [if_pos (killed.mp dead), exitIfKilled_of_killed still' dead, commonTail_of_exited rfl]
    have same := yields_exitIfKilled (t.yield killedFirst)
    rw [exitIfKilled_of_killed still' dead, once] at same
    exact same
  · have lives : (t.yield killedFirst).killedInUser = false := by simpa using dead
    rw [if_neg (fun early => dead (killed.mpr early)), exitIfKilled_of_not lives,
      (commonTail_of_running still' lives tick').1, once]

/-- A tick makes one scheduling decision exactly if a `RUNNING` process exits in
the timer case. -/
theorem decidesOnce_iff (cpu0 killedFirst killedSecond : Bool) (userMapped : Nat → Bool)
    {r : TrapRun} (atTick : AtTick r) :
    DecidesOnce userMapped r (r.trapTimer cpu0 killedFirst killedSecond userMapped) ↔
      ExitsEarly killedFirst userMapped r := by
  have exits : (r.trapTimer cpu0 killedFirst killedSecond userMapped).exits ≤ 1 :=
    exits_trapTimer atTick
  unfold DecidesOnce ExitsEarly
  rw [and_iff_left exits]
  refine forall_congr' fun p => forall_congr' fun isProc => forall_congr' fun running => ?_
  by_cases redirected : r.Redirected userMapped
  · obtain ⟨q, redirect⟩ := Option.isSome_iff_exists.mp redirected.1
    have inUser := (wantsRedirect_eq_some.mp redirect).2.2.1
    rw [yields_of_redirected atTick isProc redirected, if_pos redirected]
    cases p.killed with
    | true => simp [inUser]
    | false => simp [redirected]
  · rw [yields_of_not_redirected atTick isProc running redirected, if_neg redirected]
    by_cases early : r.InUser ∧ (p.killed = true ∨ p.scheduler ≠ 0 ∨ killedFirst = true)
    · rw [if_pos early]
      simp only [redirected, not_false_eq_true, true_and]
      exact ⟨fun _ => early, fun _ => trivial⟩
    · rw [if_neg early]
      simp only [redirected, not_false_eq_true, true_and]
      exact ⟨fun impossible => absurd impossible (by decide), fun now => absurd now early⟩

end Tick

/-- A process in user mode, with or without a scheduler, at a tick. -/
def tickAt (scheduler : Word) (killed : Bool) : TrapRun where
  tf := alltraps ⟨0, 0, 0, 0, 8192, 0, 0, 0, 4096, 0, fun _ => 0⟩ timerTrapno 0
  mem := fun _ => 0
  proc := some ⟨.running, killed, scheduler⟩
  calls := []
  exited := false

theorem atTick_tickAt (scheduler : Word) (killed : Bool) : AtTick (tickAt scheduler killed) :=
  ⟨rfl, rfl, rfl⟩

theorem decidesOnce_killed :
    DecidesOnce (fun _ => true) (tickAt 64 true)
      ((tickAt 64 true).trapTimer true false false fun _ => true) := by
  refine (decidesOnce_iff true false false (fun _ => true) (atTick_tickAt 64 true)).mpr ?_
  rintro p isProc -
  cases isProc
  exact ⟨by decide, .inl rfl⟩

/-- A redirected process yields in the common tail, and one without a scheduler
yields twice. -/
theorem decides_twice :
    ¬ DecidesOnce (fun _ => true) (tickAt 64 false)
        ((tickAt 64 false).trapTimer true false false fun _ => true) ∧
      ¬ DecidesOnce (fun _ => true) (tickAt 0 false)
        ((tickAt 0 false).trapTimer true false false fun _ => true) := by
  constructor
  · intro once
    have count := once.1 _ rfl rfl
    revert count
    decide
  · intro once
    have count := once.1 _ rfl rfl
    revert count
    decide

end TrapRun

end Xv6
