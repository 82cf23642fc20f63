import Xv6.ProcStacks

/-!
# What `kill` reaches

`kill` compares the pids of all entries, whatever their state, and a `fork` that
fails leaves the pid and `killed` in the entry it gives up.  As long as `kill`
is not called with the pid that a free entry still carries, and no `fork` fails
after its child was killed, `kill` finds processes only and a new process
starts with `killed` clear unless it was killed itself.
-/

namespace Xv6.Procs

open LabelledRuns

variable {slots cpus : Nat} {Other : Type}

/-- Every `kill` so far has returned 0 exactly if an entry in use had the pid,
and every child that `fork` made `RUNNABLE` with `killed` set was killed by its
own pid. -/
structure System.KillsProcesses (s : System slots cpus Other) : Prop where
  kills : ∀ pid result live, .kill pid result live ∈ s.past.events →
    (result = 0 ↔ live = true)
  started : ∀ killed called, .started killed called ∈ s.past.events →
    killed = true → called = true

/-- The statement does not meet an entry that it would spoil: `kill` no free
entry, and a `fork` that fails no child that was killed. -/
def Stmt.Clean (t : ProcTable slots (Channel slots Other)) (frame : Option Nat) :
    Stmt slots Other → Prop
  | .killScan pid => ∀ p, (t p).state = .unused → (t p).pid ≠ pid
  | .kallocStack _ np | .copyuvm _ np => frame = none → (t np).killed = false
  | _ => True

instance (t : ProcTable slots (Channel slots Other)) (frame : Option Nat) :
    DecidablePred (Stmt.Clean t frame)
  | .killScan _ => inferInstanceAs (Decidable (∀ _, _))
  | .kallocStack _ _ | .copyuvm _ _ => inferInstanceAs (Decidable (_ → _))
  | .acquire | .release | .yieldState | .sched | .fallAsleep _ _ | .tidyUp _
  | .wakeup1 _ | .exitScan _ | .waitScan _ | .allocScan _ | .setParent _ _
  | .startChild _ => isTrue trivial

/-- The statement that a CPU on a kernel stack executes next. -/
def System.nextStmt (s : System slots cpus Other) (c : Fin cpus) :
    Option (Stmt slots Other) :=
  (s.cpu c).stack.bind fun f => (s.thread f).head?

/-- The condition on a step. -/
def CleanStep (s : System slots cpus Other) : Label cpus Other → Prop
  | .run c frame => ∀ stmt ∈ s.nextStmt c, stmt.Clean s.ptable frame
  | _ => True

instance (s : System slots cpus Other) :
    DecidablePred (CleanStep s : Label cpus Other → Prop)
  | .run c frame =>
      inferInstanceAs (Decidable (∀ stmt ∈ s.nextStmt c, stmt.Clean s.ptable frame))
  | .exec _ | .call _ _ | .tick _ _ _ | .wakeup _ _ | .fault _ | .uthreadInit _ _
  | .takeFrame _ | .returnFrame _ => isTrue trivial

/-- Free entries have `killed` clear, and an embryo with `killed` set was killed
by its own pid. -/
structure KilledOk (s : System slots cpus Other) : Prop where
  free : ∀ p, (s.ptable p).state = .unused → (s.ptable p).killed = false
  embryo : ∀ p, (s.ptable p).state = .embryo → (s.ptable p).killed = true →
    s.past.called p = true
  history : s.KillsProcesses

/-- Nothing becomes `UNUSED` or `EMBRYO`. -/
def Grown (t t' : ProcTable slots (Channel slots Other)) : Prop :=
  ∀ p, ((t' p).state = .unused → (t p).state = .unused) ∧
    ((t' p).state = .embryo → (t p).state = .embryo)

theorem Grown.refl (t : ProcTable slots (Channel slots Other)) : Grown t t :=
  fun _ => ⟨id, id⟩

theorem Grown.of_awakened {t t' : ProcTable slots (Channel slots Other)}
    (awakened : Awakened t t') : Grown t t' := by
  intro p
  rcases (awakened p).2 with same | ⟨-, woken⟩
  · rw [same]
    exact ⟨id, id⟩
  · rw [woken]
    exact ⟨nofun, nofun⟩

theorem Grown.update {t : ProcTable slots (Channel slots Other)} {p : Fin slots}
    {proc : Proc slots (Channel slots Other)}
    (unused : proc.state = .unused → (t p).state = .unused)
    (embryo : proc.state = .embryo → (t p).state = .embryo) :
    Grown t (Function.update t p proc) := by
  intro q
  by_cases here : q = p
  · subst here
    rw [Function.update_self]
    exact ⟨unused, embryo⟩
  · rw [Function.update_of_ne here]
    exact ⟨id, id⟩

theorem Grown.exit [DecidableEq Other] (p init : Fin slots)
    (t : ProcTable slots (Channel slots Other)) : Grown t (exitTable p init t) := by
  intro q
  have before := Grown.of_awakened
    ((awakened_wakeParent p t).trans (awakened_reparent p init _)) q
  unfold exitTable
  by_cases here : q = p
  · subst here
    rw [ProcTable.state_setState_self]
    exact ⟨nofun, nofun⟩
  · rw [ProcTable.state_setState_of_ne _ _ here]
    exact before

/-- Other events do not matter. -/
theorem System.KillsProcesses.cons {s next : System slots cpus Other}
    {event : Event} (history : s.KillsProcesses)
    (events : next.past.events = event :: s.past.events)
    (kills : ∀ pid result live, event = .kill pid result live →
      (result = 0 ↔ live = true))
    (started : ∀ killed called, event = .started killed called →
      killed = true → called = true) : next.KillsProcesses := by
  refine ⟨fun pid result live member => ?_, fun killed called member => ?_⟩
  · rw [events] at member
    rcases List.mem_cons.mp member with rfl | before
    · exact kills pid result live rfl
    · exact history.kills pid result live before
  · rw [events] at member
    rcases List.mem_cons.mp member with rfl | before
    · exact started killed called rfl
    · exact history.started killed called before

namespace KilledOk

variable {s next : System slots cpus Other}

/-- A step that leaves `killed` alone. -/
theorem keep (ok : KilledOk s) (grown : Grown s.ptable next.ptable)
    (killed : ProcTable.Keeps Proc.killed s.ptable next.ptable)
    (called : next.past.called = s.past.called)
    (history : next.KillsProcesses) : KilledOk next := by
  refine ⟨fun p unused => ?_, fun p embryo isKilled => ?_, history⟩
  · rw [killed p]
    exact ok.free p ((grown p).1 unused)
  · rw [killed p] at isKilled
    rw [called]
    exact ok.embryo p ((grown p).2 embryo) isKilled

theorem history_of_events (ok : KilledOk s)
    (events : next.past.events = s.past.events) : next.KillsProcesses := by
  refine ⟨fun pid result live member => ?_, fun killed called member => ?_⟩
  · rw [events] at member
    exact ok.history.kills pid result live member
  · rw [events] at member
    exact ok.history.started killed called member

/-- A process that is past `EMBRYO` may get killed in any way. -/
theorem update (ok : KilledOk s) {p : Fin slots}
    {proc : Proc slots (Channel slots Other)}
    (table : next.ptable = Function.update s.ptable p proc)
    (unused : proc.state = .unused → proc.killed = false)
    (embryo : proc.state = .embryo → proc.killed = true →
      next.past.called p = true)
    (others : ∀ q, q ≠ p → next.past.called q = s.past.called q)
    (history : next.KillsProcesses) : KilledOk next := by
  refine ⟨fun q => ?_, fun q => ?_, history⟩
  · rw [table]
    by_cases here : q = p
    · subst here
      rw [Function.update_self]
      exact unused
    · rw [Function.update_of_ne here]
      exact ok.free q
  · rw [table]
    by_cases here : q = p
    · subst here
      rw [Function.update_self]
      exact embryo
    · rw [Function.update_of_ne here, others q here]
      exact ok.embryo q

end KilledOk

section

variable {s next : System slots cpus Other}

theorem System.hasPid_iff (s : System slots cpus Other) (pid : BitVec 32) :
    s.hasPid pid = true ↔ ∃ p, (s.ptable p).state ≠ .unused ∧
      (s.ptable p).pid = pid := by
  unfold System.hasPid
  constructor
  · intro found
    obtain ⟨p, first⟩ := Option.isSome_iff_exists.mp found
    have holds := ProcTable.first_eq_some first
    exact ⟨p, of_decide_eq_true holds⟩
  · rintro ⟨p, holds⟩
    by_contra missing
    have absent := ProcTable.first_eq_none (Option.not_isSome_iff_eq_none.mp missing) p
    exact of_decide_eq_false absent holds

/-- `kill` with a pid that no free entry carries. -/
theorem KilledOk.killScan (ok : KilledOk s) {pid : BitVec 32}
    (clean : ∀ p, (s.ptable p).state = .unused → (s.ptable p).pid ≠ pid) :
    KilledOk (s.killScan pid) := by
  have grown : Grown s.ptable (s.ptable.kill pid).1 := .of_awakened (awakened_kill _ _)
  have killed (p : Fin slots) : ((s.ptable.kill pid).1 p).killed = (s.ptable p).killed ∨
      (s.ptable p).pid = pid := by
    unfold ProcTable.kill
    split
    · rename_i q found
      by_cases here : p = q
      · subst here
        exact .inr (by simpa using ProcTable.first_eq_some found)
      · exact .inl (by simp [here])
    · exact .inl rfl
  refine ⟨fun p unused => ?_, fun p embryo isKilled => ?_, ?_⟩
  · have before := (grown p).1 unused
    rcases killed p with same | found
    · exact same.trans (ok.free p before)
    · exact absurd found (clean p before)
  · have before := (grown p).2 embryo
    change (s.past.called p || _) = true
    rw [Bool.or_eq_true, decide_eq_true_eq]
    rcases killed p with same | found
    · exact .inl (ok.embryo p before (same.symm.trans isKilled))
    · exact .inr ⟨by simp [before], found⟩
  · refine ok.history.cons rfl ?_ nofun
    intro pid' result live same
    obtain ⟨-, rfl, rfl⟩ := Event.kill.inj same
    rw [s.hasPid_iff]
    unfold ProcTable.kill
    split
    · rename_i p found
      have has : (s.ptable p).pid = pid := by
        simpa using ProcTable.first_eq_some found
      exact ⟨fun _ => ⟨p, fun unused => clean p unused has, has⟩, fun _ => rfl⟩
    · rename_i missing
      refine ⟨nofun, ?_⟩
      rintro ⟨p, -, has⟩
      have absent := ProcTable.first_eq_none missing p
      simp [has] at absent

theorem runStmt_killedOk [DecidableEq Other] {c : Fin cpus} {f : Nat}
    {stmt : Stmt slots Other} {rest : List (Stmt slots Other)}
    {frame : Option Nat} (stacksOk : StacksOk s) (ok : KilledOk s)
    (stack : (s.cpu c).stack = some f) (code : s.thread f = stmt :: rest)
    (clean : stmt.Clean s.ptable frame)
    (stepped : s.runStmt c f rest frame stmt = some next) : KilledOk next := by
  cases stmt with
  | acquire | release =>
      simp only [System.runStmt] at stepped
      split at stepped <;> cases stepped
      exact ok.keep (.refl _) (.refl _) rfl (ok.history_of_events rfl)
  | yieldState =>
      obtain ⟨p, -, rfl⟩ := Option.map_eq_some_iff.mp stepped
      exact ok.keep (.update (by rintro ⟨⟩) (by rintro ⟨⟩)) (.update rfl) rfl
        (ok.history_of_events rfl)
  | sched =>
      obtain ⟨p, -, stepped⟩ := Option.bind_eq_some_iff.mp stepped
      split at stepped <;> cases stepped
      exact ok.keep (.refl _) (.refl _) rfl (ok.history_of_events rfl)
  | fallAsleep p chan =>
      cases stepped
      exact ok.keep (.update (by rintro ⟨⟩) (by rintro ⟨⟩)) (.update rfl) rfl
        (ok.history_of_events rfl)
  | tidyUp p =>
      cases stepped
      exact ok.keep (.update id id) (.update rfl) rfl (ok.history_of_events rfl)
  | wakeup1 chan =>
      cases stepped
      exact ok.keep (.of_awakened (awakened_wakeup1 _ _))
        (ProcTable.keeps_wakeup1 (fun _ _ => rfl) _ _) rfl (ok.history_of_events rfl)
  | killScan pid =>
      cases stepped
      have killed := ok.killScan clean
      exact killed.keep (.refl _) (.refl _) rfl (killed.history_of_events rfl)
  | exitScan p =>
      cases stepped
      exact ok.keep (.exit _ _ _)
        (keeps_exitTable (fun _ _ => rfl) (fun _ _ => rfl) _ _ _) rfl
        (ok.history_of_events rfl)
  | waitScan p =>
      simp only [System.runStmt] at stepped
      split at stepped
      · obtain ⟨g, -, rfl⟩ := Option.map_eq_some_iff.mp stepped
        exact ok.update rfl (fun _ => rfl) (by rintro ⟨⟩) (fun _ _ => rfl)
          (ok.history.cons rfl (by rintro _ _ _ ⟨⟩) (by rintro _ _ ⟨⟩))
      · split at stepped <;> cases stepped
        · exact ok.keep (.refl _) (.refl _) rfl (ok.history_of_events rfl)
        · exact ok.keep (.update (by rintro ⟨⟩) (by rintro ⟨⟩)) (.update rfl) rfl
            (ok.history_of_events rfl)
  | allocScan p =>
      simp only [System.runStmt] at stepped
      split at stepped <;> cases stepped
      · rename_i np found
        have unused : (s.ptable np).state = .unused := by
          simpa using ProcTable.first_eq_some found
        refine ok.update rfl (by rintro ⟨⟩) (fun _ killed => ?_) (fun q other => ?_)
          (ok.history_of_events rfl)
        · cases killed.symm.trans (ok.free np unused)
        · exact Function.update_of_ne other _ _
      · exact ok.keep (.refl _) (.refl _) rfl (ok.history_of_events rfl)
  | kallocStack p np =>
      simp only [System.runStmt] at stepped
      split at stepped
      · split at stepped <;> cases stepped
        exact ok.keep (.update id id) (.update rfl) rfl (ok.history_of_events rfl)
      · cases stepped
        exact ok.update rfl (fun _ => clean rfl) (by rintro ⟨⟩) (fun _ _ => rfl)
          (ok.history_of_events rfl)
  | copyuvm p np =>
      simp only [System.runStmt] at stepped
      split at stepped
      · cases stepped
        exact ok.keep (.refl _) (.refl _) rfl (ok.history_of_events rfl)
      · obtain ⟨g, -, rfl⟩ := Option.map_eq_some_iff.mp stepped
        exact ok.update rfl (fun _ => clean rfl) (by rintro ⟨⟩) (fun _ _ => rfl)
          (ok.history_of_events rfl)
  | setParent p np =>
      cases stepped
      exact ok.keep (.update id id) (.update rfl) rfl (ok.history_of_events rfl)
  | startChild np =>
      cases stepped
      obtain ⟨p, -, kstack, -⟩ := stacksOk.executing stack
      have embryo : (s.ptable np).state = .embryo :=
        (stacksOk.child kstack (by rw [code]; exact List.mem_cons_self) np rfl).1
      refine ok.keep (.update (by rintro ⟨⟩) (by rintro ⟨⟩)) (.update rfl) rfl
        (ok.history.cons rfl (by rintro _ _ _ ⟨⟩) ?_)
      intro killed called same isKilled
      obtain ⟨rfl, rfl⟩ := Event.started.inj same
      exact ok.embryo np embryo isKilled

theorem runScheduler_killedOk {c : Fin cpus} {point : SchedPoint}
    (ok : KilledOk s) (stepped : s.runScheduler c point = some next) :
    KilledOk next := by
  cases point with
  | idle =>
      simp only [System.runScheduler] at stepped
      split at stepped <;> cases stepped
      exact ok.keep (.refl _) (.refl _) rfl (ok.history_of_events rfl)
  | scan i =>
      simp only [System.runScheduler] at stepped
      split at stepped
      · split at stepped <;> cases stepped
        · exact ok.keep (.update (by rintro ⟨⟩) (by rintro ⟨⟩)) (.update rfl) rfl
            (ok.history_of_events rfl)
        · exact ok.keep (.refl _) (.refl _) rfl (ok.history_of_events rfl)
      · split at stepped <;> cases stepped
        exact ok.keep (.refl _) (.refl _) rfl (ok.history_of_events rfl)
  | switched i =>
      cases stepped
      exact ok.keep (.refl _) (.refl _) rfl (ok.history_of_events rfl)

/-- A `RUNNING` process may set its own `killed`. -/
theorem KilledOk.killSelf (ok : KilledOk s) {p : Fin slots}
    (running : (s.ptable p).state = .running)
    (table : next.ptable = Function.update s.ptable p { s.ptable p with killed := true })
    (called : next.past.called = s.past.called)
    (events : next.past.events = s.past.events) : KilledOk next := by
  refine ok.update table (fun unused => ?_) (fun embryo => ?_) (fun q _ => ?_)
    (ok.history_of_events events)
  · cases running.symm.trans unused
  · cases running.symm.trans embryo
  · rw [called]

theorem step_killedOk [DecidableEq Other] {label : Label cpus Other}
    (ok : StacksOk s ∧ KilledOk s) (clean : CleanStep s label)
    (stepped : s.step label = some next) : StacksOk next ∧ KilledOk next := by
  obtain ⟨stacksOk, ok⟩ := ok
  refine ⟨step_stacksOk stacksOk stepped, ?_⟩
  cases label with
  | call c call =>
      obtain ⟨p, f, -, -, rfl⟩ := System.step_call stepped
      exact ok.keep (.refl _) (.refl _) rfl (ok.history_of_events rfl)
  | tick c user copied =>
      obtain ⟨p, f, -, -, -, running, rfl⟩ := System.step_tick stepped
      unfold System.tickThread
      split
      · split
        · exact ok.keep (.refl _) (.refl _) rfl (ok.history.cons rfl nofun nofun)
        · exact ok.killSelf running rfl rfl rfl
      · exact ok.keep (.refl _) (.refl _) rfl (ok.history_of_events rfl)
  | wakeup c chan =>
      obtain ⟨f, -, -, rfl⟩ | ⟨-, -, rfl⟩ := System.step_wakeup stepped
      · exact ok.keep (.refl _) (.refl _) rfl (ok.history_of_events rfl)
      · exact ok.keep (.of_awakened (awakened_wakeup1 _ _))
          (ProcTable.keeps_wakeup1 (fun _ _ => rfl) _ _) rfl
          (ok.history_of_events rfl)
  | fault c =>
      obtain ⟨p, f, outside, rfl⟩ := System.step_fault stepped
      exact ok.killSelf (stacksOk.of_outside outside).2 rfl rfl rfl
  | uthreadInit c address =>
      obtain ⟨p, f, -, rfl⟩ := System.step_uthreadInit stepped
      exact ok.keep (.update id id) (.update rfl) rfl (ok.history_of_events rfl)
  | exec c =>
      obtain ⟨p, f, -, rfl⟩ := System.step_exec stepped
      exact ok.keep (.refl _) (.refl _) rfl (ok.history_of_events rfl)
  | takeFrame g =>
      obtain ⟨-, rfl⟩ := System.step_takeFrame stepped
      exact ok.keep (.refl _) (.refl _) rfl (ok.history_of_events rfl)
  | returnFrame g =>
      obtain ⟨-, rfl⟩ := System.step_returnFrame stepped
      exact ok.keep (.refl _) (.refl _) rfl (ok.history_of_events rfl)
  | run c frame =>
      obtain ⟨f, stmt, rest, stack, code, stepped⟩ | ⟨-, stepped⟩ :=
        System.step_run stepped
      · refine runStmt_killedOk stacksOk ok stack code (clean stmt ?_) stepped
        simp [System.nextStmt, stack, code]
      · exact runScheduler_killedOk ok stepped

theorem boot_killedOk (boot : s.Boot) : KilledOk s := by
  obtain ⟨f, init, -⟩ := boot.init
  have clear (p : Fin slots) : (s.ptable p).killed = false := by
    by_cases here : p = s.initproc
    · rw [here, init]
    · rw [boot.others p here]
  refine ⟨fun p _ => clear p, fun p _ killed => ?_, ?_⟩
  · cases (clear p).symm.trans killed
  · refine ⟨fun _ _ _ member => ?_, fun _ _ member => ?_⟩ <;>
      rw [boot.events] at member <;> cases member

/-- In every run in which `kill` is never called with the pid that a free entry
carries and no `fork` fails after its child was killed, `kill` reaches processes
only, and no process starts killed that was not killed itself. -/
theorem killsProcesses_of_clean [DecidableEq Other]
    {s last : System slots cpus Other} {labels : List (Label cpus Other)}
    (boot : s.Boot) (clean : RunMeets System.step CleanStep s labels)
    (ran : run System.step s labels = some last) : last.KillsProcesses :=
  (invariant_of_runMeets step_killedOk ⟨boot_stacksOk boot, boot_killedOk boot⟩
    clean ran).2.history

end

/-- Init forks and kills its child before the child has run. -/
def forkAndKill : List (Label 1 Unit) :=
  List.replicate 3 (Label.run 0 none) ++ Label.call 0 .fork ::
    List.replicate 3 (Label.run 0 none) ++
    [Label.run 0 (some 1), .run 0 (some 0)] ++ List.replicate 4 (Label.run 0 none) ++
    Label.call 0 (.kill 2) :: List.replicate 3 (Label.run 0 none)

theorem forkAndKill_killsProcesses :
    ∃ last, run System.step (System.booted 2 1 Unit) forkAndKill = some last ∧
      last.past.events = [.kill 2 0 true, .started false false] ∧
      last.KillsProcesses := by
  have reached : ((run System.step (System.booted 2 1 Unit) forkAndKill).map
      fun s => s.past.events) = some [.kill 2 0 true, .started false false] := by
    decide +kernel
  obtain ⟨last, ran, events⟩ := Option.map_eq_some_iff.mp reached
  exact ⟨last, ran, events, killsProcesses_of_clean (System.booted_boot 2 1)
    (by decide +kernel) ran⟩

/-- Init calls `kill(0)` and then forks. -/
def killZeroThenFork : List (Label 1 Unit) :=
  List.replicate 3 (Label.run 0 none) ++ Label.call 0 (.kill 0) ::
    List.replicate 3 (Label.run 0 none) ++ Label.call 0 .fork ::
    List.replicate 3 (Label.run 0 none) ++
    [Label.run 0 (some 1), .run 0 (some 0)] ++ List.replicate 4 (Label.run 0 none)

/-- `kill(0)` returns 0 although no process has that pid, and the child starts
killed although nobody called `kill` with its pid. -/
theorem killZeroThenFork_spoils :
    ∃ last, run System.step (System.booted 2 1 Unit) killZeroThenFork = some last ∧
      last.past.events = [.started true false, .kill 0 0 false] ∧
      ¬ last.KillsProcesses := by
  have reached : ((run System.step (System.booted 2 1 Unit) killZeroThenFork).map
      fun s => s.past.events) = some [.started true false, .kill 0 0 false] := by
    decide +kernel
  obtain ⟨last, ran, events⟩ := Option.map_eq_some_iff.mp reached
  refine ⟨last, ran, events, fun fine => ?_⟩
  have wrong := fine.started true false (by simp [events]) rfl
  cases wrong

end Xv6.Procs
