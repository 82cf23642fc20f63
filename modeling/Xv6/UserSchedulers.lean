import Mathlib.Algebra.GroupWithZero.Nat
import Xv6.ProcStacks

/-!
# Registered user schedulers

`uthread_init` stores an address in `p->scheduler`, and the timer interrupt
sets the program counter of the process to it.  `allocproc` resets the field
and `fork` does not copy it, but `exec` leaves it alone: the address belongs to
the running program as long as no registered process calls `exec`.
-/

namespace Xv6.Procs

open LabelledRuns

variable {slots cpus : Nat} {Other : Type}

/-- A process with a user scheduler has registered its address since its last
`exec`, or since it exists, and ticks have only redirected to such addresses. -/
structure System.OwnSchedulers (s : System slots cpus Other) : Prop where
  registered : ∀ p, (s.ptable p).state ≠ .unused → (s.ptable p).scheduler ≠ 0 →
    (s.ptable p).scheduler ∈ s.past.registered p
  redirected : ∀ address own, .redirected address own ∈ s.past.events → own = true

/-- Every successful `exec` is called by a process without a user scheduler. -/
def ExecUnregistered (s : System slots cpus Other) : Label cpus Other → Prop
  | .exec c => ∀ p, (s.cpu c).proc = some p → (s.ptable p).scheduler = 0
  | _ => True

instance (s : System slots cpus Other) :
    DecidablePred (ExecUnregistered s : Label cpus Other → Prop)
  | .exec c => inferInstanceAs (Decidable (∀ p, (s.cpu c).proc = some p → _))
  | .call _ _ | .tick _ _ _ | .wakeup _ _ | .fault _ | .uthreadInit _ _
  | .takeFrame _ | .returnFrame _ | .run _ _ => isTrue trivial

/-- The invariant speaks about free entries as well. -/
structure SchedulersOk (s : System slots cpus Other) : Prop where
  registered : ∀ p, (s.ptable p).scheduler ≠ 0 →
    (s.ptable p).scheduler ∈ s.past.registered p
  redirected : ∀ address own, .redirected address own ∈ s.past.events → own = true

/-- A step that registers nothing and redirects nothing. -/
structure KeepsSchedulers (s next : System slots cpus Other) : Prop where
  registered : ∀ p, (next.ptable p).scheduler = (s.ptable p).scheduler ∧
      next.past.registered p = s.past.registered p ∨
    (next.ptable p).scheduler = 0
  redirected : ∀ address own, .redirected address own ∈ next.past.events →
    .redirected address own ∈ s.past.events

theorem SchedulersOk.keep {s next : System slots cpus Other}
    (ok : SchedulersOk s) (keeps : KeepsSchedulers s next) :
    SchedulersOk next := by
  refine ⟨fun p nonzero => ?_, fun address own member => ?_⟩
  · rcases keeps.registered p with ⟨scheduler, registered⟩ | zero
    · rw [scheduler] at nonzero ⊢
      rw [registered]
      exact ok.registered p nonzero
    · exact absurd zero nonzero
  · exact ok.redirected address own (keeps.redirected address own member)

/-- The table changes only elsewhere, and what happens is not recorded. -/
theorem KeepsSchedulers.of_table {s next : System slots cpus Other}
    (table : ProcTable.Keeps Proc.scheduler s.ptable next.ptable)
    (registered : next.past.registered = s.past.registered)
    (events : next.past.events = s.past.events) : KeepsSchedulers s next := by
  refine ⟨fun p => .inl ⟨table p, congrFun registered p⟩,
    fun address own member => ?_⟩
  rwa [events] at member

/-- The table changes only elsewhere, and another kind of event is recorded. -/
theorem KeepsSchedulers.of_event {s next : System slots cpus Other} {event : Event}
    (table : ProcTable.Keeps Proc.scheduler s.ptable next.ptable)
    (registered : next.past.registered = s.past.registered)
    (events : next.past.events = event :: s.past.events)
    (other : ∀ address own, event ≠ .redirected address own) :
    KeepsSchedulers s next := by
  refine ⟨fun p => .inl ⟨table p, congrFun registered p⟩,
    fun address own member => ?_⟩
  rw [events] at member
  rcases List.mem_cons.mp member with rfl | before
  · exact absurd rfl (other address own)
  · exact before

section

variable {s next : System slots cpus Other}

theorem runStmt_keepsSchedulers [DecidableEq Other] {c : Fin cpus} {f : Nat}
    {stmt : Stmt slots Other} {rest : List (Stmt slots Other)}
    {frame : Option Nat} (stepped : s.runStmt c f rest frame stmt = some next) :
    KeepsSchedulers s next := by
  cases stmt with
  | acquire | release =>
      simp only [System.runStmt] at stepped
      split at stepped <;> cases stepped
      exact .of_table (.refl _) rfl rfl
  | yieldState =>
      obtain ⟨p, -, rfl⟩ := Option.map_eq_some_iff.mp stepped
      exact .of_table (.update rfl) rfl rfl
  | sched =>
      obtain ⟨p, -, stepped⟩ := Option.bind_eq_some_iff.mp stepped
      split at stepped <;> cases stepped
      exact .of_table (.refl _) rfl rfl
  | fallAsleep p chan | tidyUp p =>
      cases stepped
      exact .of_table (.update rfl) rfl rfl
  | wakeup1 chan =>
      cases stepped
      exact .of_table (ProcTable.keeps_wakeup1 (fun _ _ => rfl) _ _) rfl rfl
  | killScan pid =>
      cases stepped
      exact .of_event (ProcTable.keeps_kill (fun _ => rfl) _ _) rfl rfl (by rintro _ _ ⟨⟩)
  | exitScan p =>
      cases stepped
      exact .of_table (keeps_exitTable (fun _ _ => rfl) (fun _ _ => rfl) _ _ _)
        rfl rfl
  | waitScan p =>
      simp only [System.runStmt] at stepped
      split at stepped
      · obtain ⟨g, -, rfl⟩ := Option.map_eq_some_iff.mp stepped
        exact .of_event (.update rfl) rfl rfl (by rintro _ _ ⟨⟩)
      · split at stepped <;> cases stepped
        · exact .of_table (.refl _) rfl rfl
        · exact .of_table (.update rfl) rfl rfl
  | allocScan p =>
      simp only [System.runStmt] at stepped
      split at stepped <;> cases stepped
      · rename_i np found
        refine ⟨fun q => ?_, fun _ _ => id⟩
        change (Function.update s.ptable np _ q).scheduler = _ ∧
          Function.update s.past.registered np [] q = _ ∨
          (Function.update s.ptable np _ q).scheduler = 0
        by_cases here : q = np
        · subst here
          rw [Function.update_self]
          exact .inr rfl
        · rw [Function.update_of_ne here, Function.update_of_ne here]
          exact .inl ⟨rfl, rfl⟩
      · exact .of_table (.refl _) rfl rfl
  | kallocStack p np =>
      simp only [System.runStmt] at stepped
      split at stepped
      · split at stepped <;> cases stepped
        exact .of_table (.update rfl) rfl rfl
      · cases stepped
        exact .of_table (.update rfl) rfl rfl
  | copyuvm p np =>
      simp only [System.runStmt] at stepped
      split at stepped
      · cases stepped
        exact .of_table (.refl _) rfl rfl
      · obtain ⟨g, -, rfl⟩ := Option.map_eq_some_iff.mp stepped
        exact .of_table (.update rfl) rfl rfl
  | setParent p np =>
      cases stepped
      exact .of_table (.update rfl) rfl rfl
  | startChild np =>
      cases stepped
      exact .of_event (.update rfl) rfl rfl (by rintro _ _ ⟨⟩)

theorem runScheduler_keepsSchedulers {c : Fin cpus} {point : SchedPoint}
    (stepped : s.runScheduler c point = some next) : KeepsSchedulers s next := by
  cases point with
  | idle =>
      simp only [System.runScheduler] at stepped
      split at stepped <;> cases stepped
      exact .of_table (.refl _) rfl rfl
  | scan i =>
      simp only [System.runScheduler] at stepped
      split at stepped
      · split at stepped <;> cases stepped
        · exact .of_table (.update rfl) rfl rfl
        · exact .of_table (.refl _) rfl rfl
      · split at stepped <;> cases stepped
        exact .of_table (.refl _) rfl rfl
  | switched i =>
      cases stepped
      exact .of_table (.refl _) rfl rfl

/-- A tick redirects to the registered address. -/
theorem SchedulersOk.tick (ok : SchedulersOk s) (p : Fin slots) (f : Nat)
    (code : List (Stmt slots Other)) (user copied : Bool) :
    SchedulersOk (s.tickThread p f code user copied) := by
  unfold System.tickThread
  split
  · rename_i wants
    split
    · refine ⟨ok.registered, fun address own member => ?_⟩
      rcases List.mem_cons.mp member with same | before
      · obtain ⟨-, rfl⟩ := Event.redirected.inj same
        exact decide_eq_true (ok.registered p wants.2)
      · exact ok.redirected address own before
    · exact ok.keep (.of_table (.update rfl) rfl rfl)
  · exact ok.keep (.of_table (.refl _) rfl rfl)

theorem step_schedulersOk [DecidableEq Other] {label : Label cpus Other}
    (ok : SchedulersOk s) (guard : ExecUnregistered s label)
    (stepped : s.step label = some next) : SchedulersOk next := by
  cases label with
  | call c call =>
      obtain ⟨p, f, -, -, rfl⟩ := System.step_call stepped
      exact ok.keep (.of_table (.refl _) rfl rfl)
  | tick c user copied =>
      obtain ⟨p, f, -, -, -, -, rfl⟩ := System.step_tick stepped
      exact ok.tick p f (s.thread f) user copied
  | wakeup c chan =>
      obtain ⟨f, -, -, rfl⟩ | ⟨-, -, rfl⟩ := System.step_wakeup stepped
      · exact ok.keep (.of_table (.refl _) rfl rfl)
      · exact ok.keep (.of_table
          (ProcTable.keeps_wakeup1 (fun _ _ => rfl) _ _) rfl rfl)
  | fault c =>
      obtain ⟨p, f, -, rfl⟩ := System.step_fault stepped
      exact ok.keep (.of_table (.update rfl) rfl rfl)
  | uthreadInit c address =>
      obtain ⟨p, f, -, rfl⟩ := System.step_uthreadInit stepped
      refine ⟨fun q nonzero => ?_, ok.redirected⟩
      change (Function.update s.ptable p _ q).scheduler ∈
        Function.update s.past.registered p _ q
      change (Function.update s.ptable p _ q).scheduler ≠ 0 at nonzero
      by_cases here : q = p
      · subst here
        rw [Function.update_self, Function.update_self]
        exact List.mem_cons_self
      · rw [Function.update_of_ne here] at nonzero ⊢
        rw [Function.update_of_ne here]
        exact ok.registered q nonzero
  | exec c =>
      obtain ⟨p, f, outside, rfl⟩ := System.step_exec stepped
      refine ⟨fun q nonzero => ?_, ok.redirected⟩
      have here : q ≠ p := by
        rintro rfl
        exact nonzero (guard q outside.proc)
      change (s.ptable q).scheduler ∈ Function.update s.past.registered p [] q
      rw [Function.update_of_ne here]
      exact ok.registered q nonzero
  | takeFrame g =>
      obtain ⟨-, rfl⟩ := System.step_takeFrame stepped
      exact ok.keep (.of_table (.refl _) rfl rfl)
  | returnFrame g =>
      obtain ⟨-, rfl⟩ := System.step_returnFrame stepped
      exact ok.keep (.of_table (.refl _) rfl rfl)
  | run c frame =>
      obtain ⟨f, stmt, rest, -, -, stepped⟩ | ⟨-, stepped⟩ :=
        System.step_run stepped
      · exact ok.keep (runStmt_keepsSchedulers stepped)
      · exact ok.keep (runScheduler_keepsSchedulers stepped)

theorem boot_schedulersOk (boot : s.Boot) : SchedulersOk s := by
  refine ⟨fun p nonzero => ?_, fun address own member => ?_⟩
  · by_cases here : p = s.initproc
    · subst here
      obtain ⟨f, init, -⟩ := boot.init
      rw [init] at nonzero
      exact absurd rfl nonzero
    · rw [boot.others p here] at nonzero
      exact absurd rfl nonzero
  · rw [boot.events] at member
    cases member

/-- After an `exec` that keeps a user scheduler the address is one of another
program. -/
theorem unregistered_of_exec [DecidableEq Other] {c : Fin cpus} (ok : StacksOk s)
    (stepped : s.step (.exec c) = some next) (own : next.OwnSchedulers) :
    ExecUnregistered s (.exec c) := by
  obtain ⟨p, f, outside, rfl⟩ := System.step_exec stepped
  intro q has
  cases outside.proc.symm.trans has
  by_contra nonzero
  have running := (ok.of_outside outside).2
  have member := own.registered p (by simp [running]) nonzero
  change _ ∈ Function.update s.past.registered p [] p at member
  rw [Function.update_self] at member
  cases member

/-- In a run of the kernel, user schedulers always belong to the running
programs exactly if every successful `exec` is called by a process without a
user scheduler. -/
theorem ownSchedulers_iff_execUnregistered [DecidableEq Other]
    {s last : System slots cpus Other} {labels : List (Label cpus Other)}
    (boot : s.Boot) (ran : run System.step s labels = some last) :
    (∀ first middle, first <+: labels → run System.step s first = some middle →
        middle.OwnSchedulers) ↔
      RunMeets System.step ExecUnregistered s labels := by
  constructor
  · intro own
    rw [runMeets_iff ran]
    intro first label middle next before reached stepped
    cases label with
    | exec c =>
        refine unregistered_of_exec (run_stacksOk boot reached) stepped ?_
        refine own (first ++ [.exec c]) next before ?_
        rw [run_append_eq_some]
        exact ⟨middle, reached, run_cons_eq_some.mpr ⟨next, stepped, rfl⟩⟩
    | _ => trivial
  · rintro meets first middle ⟨rest, rfl⟩ reached
    have ok : SchedulersOk middle :=
      invariant_of_runMeets step_schedulersOk (boot_schedulersOk boot)
        ((runMeets_append reached).mp meets).1 reached
    exact ⟨fun p _ nonzero => ok.registered p nonzero, ok.redirected⟩

end

local instance registerAndTick_neZero : NeZero 1 := ⟨by decide⟩

/-- Init registers a user scheduler and is redirected to it. -/
def registerAndTick : List (Label 1 Unit) :=
  List.replicate 3 (Label.run 0 none) ++
    [Label.exec 0, .uthreadInit 0 0x1000, .tick 0 true true]

theorem registerAndTick_ownSchedulers :
    (run System.step (System.booted 2 1 Unit) registerAndTick).isSome ∧
      ∀ first middle, first <+: registerAndTick →
        run System.step (System.booted 2 1 Unit) first = some middle →
        middle.OwnSchedulers := by
  have ran : (run System.step (System.booted 2 1 Unit) registerAndTick).isSome := by
    decide +kernel
  exact ⟨ran, (ownSchedulers_iff_execUnregistered (System.booted_boot 2 1)
    (Option.some_get ran).symm).mpr (by decide +kernel)⟩

/-- Init registers a user scheduler and executes another program. -/
def registerAndExec : List (Label 1 Unit) :=
  List.replicate 3 (Label.run 0 none) ++
    [Label.uthreadInit 0 0x1000, .exec 0, .tick 0 true true]

/-- The tick redirects the new program to the address of the old one. -/
theorem registerAndExec_redirected :
    ∃ last, run System.step (System.booted 2 1 Unit) registerAndExec = some last ∧
      .redirected 0x1000 false ∈ last.past.events ∧
      (last.ptable 0).scheduler = 0x1000 ∧ last.past.registered 0 = [] ∧
      ¬ last.OwnSchedulers := by
  have reached : ((run System.step (System.booted 2 1 Unit) registerAndExec).map
      fun s => (s.past.events, (s.ptable 0).scheduler, s.past.registered 0)) =
      some ([.redirected 0x1000 false], 0x1000, []) := by
    decide +kernel
  obtain ⟨last, ran, fields⟩ := Option.map_eq_some_iff.mp reached
  simp only [Prod.mk.injEq] at fields
  obtain ⟨events, scheduler, registered⟩ := fields
  have member : .redirected 0x1000 false ∈ last.past.events := by
    simp [events]
  refine ⟨last, ran, member, scheduler, registered, fun own => ?_⟩
  exact Bool.false_ne_true (own.redirected _ _ member)

end Xv6.Procs
