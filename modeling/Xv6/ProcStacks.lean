import Xv6.ProcModel

/-!
# Kernel stacks and CPUs

A thread that does not hold `ptable.lock` belongs to a `RUNNING` process; what
it does under the lock depends on the state that it has given its process.
`Runs` says so for the statements that a thread has left.  From this follows
that a process runs on one CPU only and that its kernel stack outlives its use.
-/

namespace Xv6.Procs

open LabelledRuns

section

variable {slots cpus : Nat} {Other : Type}

/-- The entry that a statement of `fork` is about, after `allocproc` has found
it. -/
def Stmt.child : Stmt slots Other → Option (Fin slots)
  | .kallocStack _ np | .copyuvm _ np | .setParent _ np | .startChild np => some np
  | _ => none

/-- The statement comes after the child has got its kernel stack. -/
def Stmt.afterStack : Stmt slots Other → Prop
  | .copyuvm _ _ | .setParent _ _ | .startChild _ => True
  | _ => False

def NoChild (code : List (Stmt slots Other)) : Prop :=
  ∀ stmt ∈ code, stmt.child = none

/-- A thread of process `p` can execute these statements, starting with or
without the lock and in this state of the process.  `init` never exits. -/
def Runs (init p : Fin slots) : Bool → ProcState → List (Stmt slots Other) → Prop
  | held, state, [] => held = false ∧ state = .running
  | held, state, .acquire :: code =>
      held = false ∧ state = .running ∧ Runs init p true .running code
  | held, state, .release :: code =>
      held = true ∧ state = .running ∧ Runs init p false .running code
  | held, state, .yieldState :: code =>
      held = true ∧ state = .running ∧ Runs init p true .runnable code
  | held, state, .sched :: code =>
      held = true ∧ (state = .zombie ∨ (state = .runnable ∨ state = .sleeping) ∧
        Runs init p true .running code)
  | held, state, .fallAsleep q _ :: code =>
      q = p ∧ held = true ∧ state = .running ∧ Runs init p true .sleeping code
  | held, state, .tidyUp q :: code =>
      q = p ∧ held = true ∧ state = .running ∧ Runs init p true .running code
  | held, state, .wakeup1 _ :: code =>
      held = true ∧ state = .running ∧ Runs init p true .running code
  | held, state, .killScan _ :: code =>
      held = true ∧ state = .running ∧ Runs init p true .running code
  | held, state, .exitScan q :: code =>
      (q = p ∧ p ≠ init) ∧ held = true ∧ state = .running ∧
        Runs init p true .zombie code
  | held, state, .waitScan q :: code =>
      q = p ∧ held = true ∧ state = .running ∧ Runs init p false .running code
  | held, state, .allocScan q :: code =>
      q = p ∧ held = true ∧ state = .running ∧ Runs init p false .running code ∧
        NoChild code
  | held, state, .kallocStack q _ :: code =>
      q = p ∧ held = false ∧ state = .running ∧ Runs init p false .running code ∧
        NoChild code
  | held, state, .copyuvm q _ :: code =>
      q = p ∧ held = false ∧ state = .running ∧ Runs init p false .running code ∧
        NoChild code
  | held, state, .setParent q _ :: code =>
      q = p ∧ held = false ∧ state = .running ∧ Runs init p false .running code ∧
        NoChild code
  | held, state, .startChild _ :: code =>
      held = true ∧ state = .running ∧ Runs init p true .running code ∧
        NoChild code

/-- Where a CPU stands that executes on the stack of its scheduler. -/
def SchedulerOk (t : ProcTable slots (Channel slots Other)) (held : Prop)
    (proc : Option (Fin slots)) : SchedPoint → Prop
  | .idle => proc = none ∧ ¬ held
  | .scan _ => proc = none ∧ held
  | .switched _ => (∃ p, proc = some p ∧ (t p).state ≠ .running) ∧ held

/-- What a statement of process `p` about its child relies on. -/
def ChildOk (s : System slots cpus Other) (p : Fin slots)
    (stmt : Stmt slots Other) : Prop :=
  ∀ np, stmt.child = some np → (s.ptable np).state = .embryo ∧
    s.past.forker np = some p ∧
    (stmt.afterStack → (s.ptable np).kstack ≠ none)

/-- The invariant of the table, the kernel stacks and the CPUs. -/
structure StacksOk (s : System slots cpus Other) : Prop where
  frame : ∀ {p f}, (s.ptable p).kstack = some f → s.frame f = .kstack
  unique : ∀ {p q f}, (s.ptable p).kstack = some f →
    (s.ptable q).kstack = some f → p = q
  unused : ∀ {p}, (s.ptable p).state = .unused → (s.ptable p).kstack = none
  stacked : ∀ {p}, (s.ptable p).state ≠ .unused → (s.ptable p).state ≠ .embryo →
    ∃ f, (s.ptable p).kstack = some f
  parked : ∀ {p f}, (s.ptable p).kstack = some f →
    (∀ c, (s.cpu c).stack ≠ some f) → (s.ptable p).state ≠ .zombie →
    s.context p = some f ∧ Runs s.initproc p true .running (s.thread f)
  executing : ∀ {c f}, (s.cpu c).stack = some f → ∃ p, (s.cpu c).proc = some p ∧
    (s.ptable p).kstack = some f ∧
    Runs s.initproc p (decide (s.lock = some c)) (s.ptable p).state (s.thread f)
  away : ∀ {c f}, (s.cpu c).stack = some f → ∃ i, (s.cpu c).point = .switched i
  scheduling : ∀ {c}, (s.cpu c).stack = none →
    SchedulerOk s.ptable (s.lock = some c) (s.cpu c).proc (s.cpu c).point
  single : ∀ {c c' p}, (s.cpu c).proc = some p → (s.cpu c').proc = some p → c = c'
  running : ∀ {p}, (s.ptable p).state = .running → ∃ c, (s.cpu c).proc = some p
  live : ∀ {c p}, (s.cpu c).proc = some p →
    (s.ptable p).state ≠ .unused ∧ (s.ptable p).state ≠ .embryo
  child : ∀ {p f stmt}, (s.ptable p).kstack = some f → stmt ∈ s.thread f →
    ChildOk s p stmt

/-- The second table differs from the first in that sleeping processes may have
been woken; what is not about states and kernel stacks may differ anyhow. -/
def Awakened (t t' : ProcTable slots (Channel slots Other)) : Prop :=
  ∀ q, (t' q).kstack = (t q).kstack ∧ ((t' q).state = (t q).state ∨
    (t q).state = .sleeping ∧ (t' q).state = .runnable)

theorem Awakened.refl (t : ProcTable slots (Channel slots Other)) :
    Awakened t t :=
  fun _ => ⟨rfl, .inl rfl⟩

theorem Awakened.trans {t t' t'' : ProcTable slots (Channel slots Other)}
    (first : Awakened t t') (second : Awakened t' t'') : Awakened t t'' := by
  intro q
  obtain ⟨kstack, state⟩ := first q
  obtain ⟨kstack', state'⟩ := second q
  refine ⟨kstack'.trans kstack, ?_⟩
  rcases state' with same' | ⟨asleep, woken⟩
  · rw [same']
    exact state
  · rcases state with same | ⟨-, runnable⟩
    · exact .inr ⟨same ▸ asleep, woken⟩
    · cases asleep.symm.trans runnable

theorem Awakened.update {t : ProcTable slots (Channel slots Other)}
    {q : Fin slots} {proc : Proc slots (Channel slots Other)}
    (kstack : proc.kstack = (t q).kstack)
    (state : proc.state = (t q).state ∨
      (t q).state = .sleeping ∧ proc.state = .runnable) :
    Awakened t (Function.update t q proc) := by
  intro r
  by_cases here : r = q
  · subst here
    rw [Function.update_self]
    exact ⟨kstack, state⟩
  · rw [Function.update_of_ne here]
    exact ⟨rfl, .inl rfl⟩

theorem awakened_wakeup1 [DecidableEq Other]
    (t : ProcTable slots (Channel slots Other)) (chan : Channel slots Other) :
    Awakened t (t.wakeup1 chan) := by
  intro q
  by_cases asleep : t.Asleep q chan
  · rw [ProcTable.wakeup1_of_asleep asleep]
    exact ⟨rfl, .inr ⟨asleep.1, rfl⟩⟩
  · rw [ProcTable.wakeup1_of_not_asleep asleep]
    exact ⟨rfl, .inl rfl⟩

theorem awakened_kill (t : ProcTable slots (Channel slots Other))
    (pid : BitVec 32) : Awakened t (t.kill pid).1 := by
  unfold ProcTable.kill
  split
  · rename_i q found
    refine .update rfl ?_
    simp only [ProcTable.killEntry]
    split
    · rename_i asleep
      exact .inr ⟨asleep, rfl⟩
    · exact .inl rfl
  · exact .refl t

theorem awakened_reparentEntry [DecidableEq Other] (p init : Fin slots)
    (t : ProcTable slots (Channel slots Other)) (q : Fin slots) :
    Awakened t (reparentEntry p init t q) := by
  unfold reparentEntry
  split
  · dsimp only
    split
    · refine Awakened.trans ?_ (awakened_wakeup1 _ _)
      exact .update rfl (.inl rfl)
    · exact .update rfl (.inl rfl)
  · exact .refl t

theorem awakened_reparent [DecidableEq Other] (p init : Fin slots)
    (t : ProcTable slots (Channel slots Other)) :
    Awakened t (reparent p init t) := by
  unfold reparent
  generalize List.finRange slots = entries
  induction entries generalizing t with
  | nil => exact .refl t
  | cons q entries ih =>
      exact (awakened_reparentEntry p init t q).trans (ih _)

theorem awakened_wakeParent [DecidableEq Other] (p : Fin slots)
    (t : ProcTable slots (Channel slots Other)) :
    Awakened t (wakeParent p t) := by
  unfold wakeParent
  split
  · exact awakened_wakeup1 _ _
  · exact .refl t

theorem Runs.running_of_free {init p : Fin slots} {state : ProcState}
    {code : List (Stmt slots Other)} (runs : Runs init p false state code) :
    state = .running := by
  cases code with
  | nil => exact runs.2
  | cons stmt code =>
      cases stmt <;> simp [Runs] at runs <;> simp [runs]

theorem Runs.of_awakened {init p : Fin slots} {held : Bool}
    {code : List (Stmt slots Other)} (runs : Runs init p held .sleeping code) :
    Runs init p held .runnable code := by
  cases code with
  | nil => simp [Runs] at runs
  | cons stmt code =>
      cases stmt <;> simp [Runs] at runs ⊢
      exact runs

/-- Only a thread that is about to call `sched` has changed the state of its
process. -/
theorem Runs.running_or_sched {init p : Fin slots} {held : Bool}
    {state : ProcState} {stmt : Stmt slots Other}
    {code : List (Stmt slots Other)}
    (runs : Runs init p held state (stmt :: code)) :
    state = .running ∨ stmt = .sched := by
  cases stmt <;> simp [Runs] at runs <;> simp [runs]

theorem Runs.live {init p : Fin slots} {held : Bool} {state : ProcState}
    {code : List (Stmt slots Other)} (runs : Runs init p held state code) :
    state ≠ .unused ∧ state ≠ .embryo := by
  cases code with
  | nil => simp [runs.2]
  | cons stmt code =>
      rcases runs.running_or_sched with rfl | rfl
      · simp
      · rcases runs.2 with rfl | ⟨rfl | rfl, _⟩ <;> simp

theorem Runs.yield_append {init p : Fin slots} {code : List (Stmt slots Other)}
    (runs : Runs init p false .running code) :
    Runs init p false .running (yieldCode ++ code) := by
  simpa [yieldCode, Runs] using runs

theorem Runs.wakeup_append {init p : Fin slots} {code : List (Stmt slots Other)}
    (chan : Other) (runs : Runs init p false .running code) :
    Runs init p false .running (wakeupCode chan ++ code) := by
  simpa [wakeupCode, Runs] using runs

theorem childOk_of_none {s : System slots cpus Other} {p : Fin slots}
    {stmt : Stmt slots Other} (none : stmt.child = none) : ChildOk s p stmt := by
  intro np some
  rw [none] at some
  cases some

namespace StacksOk

variable {s : System slots cpus Other} {c : Fin cpus} {p : Fin slots} {f : Nat}

/-- The process and the remaining statements of a CPU on a kernel stack. -/
theorem of_current (ok : StacksOk s) (stack : (s.cpu c).stack = some f)
    (proc : (s.cpu c).proc = some p) : (s.ptable p).kstack = some f ∧
    Runs s.initproc p (decide (s.lock = some c)) (s.ptable p).state
      (s.thread f) := by
  obtain ⟨q, same, kstack, runs⟩ := ok.executing stack
  cases proc.symm.trans same
  exact ⟨kstack, runs⟩

/-- The thread on a CPU takes a turn: it gets a state, statements and the lock
that fit together, and nothing else happens to kernel stacks but that sleeping
processes are woken. -/
theorem turn (ok : StacksOk s) (stack : (s.cpu c).stack = some f)
    (proc : (s.cpu c).proc = some p)
    {t : ProcTable slots (Channel slots Other)} {lock : Option (Fin cpus)}
    {code : List (Stmt slots Other)} {past : Past slots} {nextpid : BitVec 32}
    (kstack : ∀ q, (t q).kstack = (s.ptable q).kstack)
    (others : ∀ q, q ≠ p → (t q).state = (s.ptable q).state ∨
      (s.ptable q).state = .sleeping ∧ (t q).state = .runnable)
    (locks : ∀ c', c' ≠ c → (lock = some c' ↔ s.lock = some c'))
    (runs : Runs s.initproc p (decide (lock = some c)) (t p).state code)
    (children : ∀ stmt ∈ code, ChildOk s p stmt)
    (forker : past.forker = s.past.forker) :
    StacksOk { s with
      ptable := t
      lock := lock
      thread := Function.update s.thread f code
      past := past
      nextpid := nextpid } := by
  obtain ⟨mine, -⟩ := ok.of_current stack proc
  have alive := ok.live proc
  have stillAlive := runs.live
  have childOk {q : Fin slots} {stmt : Stmt slots Other}
      (before : ChildOk s q stmt) : ChildOk { s with
        ptable := t
        lock := lock
        thread := Function.update s.thread f code
        past := past
        nextpid := nextpid } q stmt := by
    intro np about
    obtain ⟨embryo, forked, stacked⟩ := before np about
    have other : np ≠ p := by
      rintro rfl
      exact alive.2 embryo
    refine ⟨?_, ?_, ?_⟩
    · rcases others np other with same | ⟨asleep, -⟩
      · exact same.trans embryo
      · rw [embryo] at asleep
        cases asleep
    · change past.forker np = some q
      rw [forker]
      exact forked
    · change _ → (t np).kstack ≠ none
      rw [kstack np]
      exact stacked
  refine ⟨?_, ?_, ?_, ?_, ?_, ?_, ok.away, ?_, ok.single, ?_, ?_, ?_⟩
  · intro q g has
    exact ok.frame ((kstack q).symm.trans has)
  · intro q r g first second
    exact ok.unique ((kstack q).symm.trans first) ((kstack r).symm.trans second)
  · intro q isUnused
    have other : q ≠ p := by
      rintro rfl
      exact stillAlive.1 isUnused
    rcases others q other with same | ⟨-, runnable⟩
    · exact (kstack q).trans (ok.unused (same.symm.trans isUnused))
    · cases runnable.symm.trans isUnused
  · intro q notUnused notEmbryo
    change ∃ g, (t q).kstack = some g
    rw [kstack q]
    by_cases here : q = p
    · subst here
      exact ⟨f, mine⟩
    · rcases others q here with same | ⟨asleep, -⟩
      · exact ok.stacked (same ▸ notUnused) (same ▸ notEmbryo)
      · exact ok.stacked (by simp [asleep]) (by simp [asleep])
  · intro q g has away alive
    have elsewhere : g ≠ f := by
      rintro rfl
      exact away c stack
    have other : q ≠ p := by
      rintro rfl
      exact elsewhere (Option.some.inj (((kstack q).symm.trans has).symm.trans mine))
    have before := ok.parked ((kstack q).symm.trans has) away (by
      rcases others q other with same | ⟨asleep, -⟩
      · exact same ▸ alive
      · simp [asleep])
    change s.context q = some g ∧
      Runs s.initproc q true .running (Function.update s.thread f code g)
    rwa [Function.update_of_ne elsewhere]
  · intro c' g onStack
    change ∃ q, (s.cpu c').proc = some q ∧ (t q).kstack = some g ∧
      Runs s.initproc q (decide (lock = some c')) (t q).state
        (Function.update s.thread f code g)
    by_cases here : c' = c
    · subst here
      cases stack.symm.trans onStack
      refine ⟨p, proc, (kstack p).trans mine, ?_⟩
      rwa [Function.update_self]
    · obtain ⟨q, has, theirs, before⟩ := ok.executing onStack
      have other : q ≠ p := by
        rintro rfl
        exact here (ok.single has proc)
      have elsewhere : g ≠ f := by
        rintro rfl
        exact other (ok.unique theirs mine)
      refine ⟨q, has, (kstack q).trans theirs, ?_⟩
      rw [Function.update_of_ne elsewhere, decide_eq_decide.mpr (locks c' here)]
      rcases others q other with same | ⟨asleep, woken⟩
      · rwa [same]
      · rw [asleep] at before
        rw [woken]
        exact before.of_awakened
  · intro c' onScheduler
    have other : c' ≠ c := by
      rintro rfl
      cases stack.symm.trans onScheduler
    have before := ok.scheduling onScheduler
    change SchedulerOk t (lock = some c') (s.cpu c').proc (s.cpu c').point
    cases point : (s.cpu c').point with
    | idle =>
        rw [point] at before
        exact ⟨before.1, mt (locks c' other).mp before.2⟩
    | scan i =>
        rw [point] at before
        exact ⟨before.1, (locks c' other).mpr before.2⟩
    | switched i =>
        rw [point] at before
        obtain ⟨⟨q, has, notRunning⟩, held⟩ := before
        refine ⟨⟨q, has, ?_⟩, (locks c' other).mpr held⟩
        have elsewhere : q ≠ p := by
          rintro rfl
          exact other (ok.single has proc)
        rcases others q elsewhere with same | ⟨-, woken⟩
        · rwa [same]
        · simp [woken]
  · intro q isRunning
    by_cases here : q = p
    · exact ⟨c, here ▸ proc⟩
    · rcases others q here with same | ⟨-, woken⟩
      · exact ok.running (same.symm.trans isRunning)
      · cases woken.symm.trans isRunning
  · intro c' q has
    by_cases here : q = p
    · exact here ▸ stillAlive
    · have before := ok.live has
      rcases others q here with same | ⟨-, woken⟩
      · change (t q).state ≠ _ ∧ (t q).state ≠ _
        rwa [same]
      · change (t q).state ≠ _ ∧ (t q).state ≠ _
        simp [woken]
  · intro q g stmt has member
    have theirs := (kstack q).symm.trans has
    change stmt ∈ Function.update s.thread f code g at member
    by_cases here : g = f
    · subst here
      cases ok.unique theirs mine
      rw [Function.update_self] at member
      exact childOk (children stmt member)
    · rw [Function.update_of_ne here] at member
      exact childOk (ok.child theirs member)

/-- An entry changes that no CPU works for: it does not become `RUNNING`, its
stack is its own and ready to run, and no other entry's stack is touched. -/
theorem entry (ok : StacksOk s) {np : Fin slots}
    (off : ∀ c, (s.cpu c).proc ≠ some np)
    {proc : Proc slots (Channel slots Other)} {frame : Nat → FrameUse}
    {thread : Nat → List (Stmt slots Other)} {context : Fin slots → Option Nat}
    {past : Past slots} {nextpid : BitVec 32}
    (notRunning : proc.state ≠ .running)
    (unused : proc.state = .unused → proc.kstack = none)
    (stacked : proc.state ≠ .unused → proc.state ≠ .embryo →
      ∃ g, proc.kstack = some g)
    (mine : ∀ g, proc.kstack = some g → frame g = .kstack ∧
      context np = some g ∧ Runs s.initproc np true .running (thread g))
    (theirs : ∀ q g, q ≠ np → (s.ptable q).kstack = some g →
      proc.kstack ≠ some g ∧ frame g = s.frame g ∧ thread g = s.thread g)
    (contexts : ∀ q, q ≠ np → context q = s.context q)
    (children : ∀ q g stmt, (Function.update s.ptable np proc q).kstack = some g →
      stmt ∈ thread g → ChildOk { s with
        ptable := Function.update s.ptable np proc
        frame := frame
        thread := thread
        context := context
        past := past
        nextpid := nextpid } q stmt) :
    StacksOk { s with
      ptable := Function.update s.ptable np proc
      frame := frame
      thread := thread
      context := context
      past := past
      nextpid := nextpid } := by
  have self : Function.update s.ptable np proc np = proc :=
    Function.update_self _ _ _
  have other {q : Fin slots} (elsewhere : q ≠ np) :
      Function.update s.ptable np proc q = s.ptable q :=
    Function.update_of_ne elsewhere _ _
  refine ⟨?_, ?_, ?_, ?_, ?_, ?_, ok.away, ?_, ok.single, ?_, ?_, children _ _ _⟩
  · intro q g has
    change (Function.update s.ptable np proc q).kstack = some g at has
    by_cases here : q = np
    · subst here
      rw [self] at has
      exact (mine g has).1
    · rw [other here] at has
      exact (theirs q g here has).2.1.trans (ok.frame has)
  · intro q r g first second
    change (Function.update s.ptable np proc q).kstack = some g at first
    change (Function.update s.ptable np proc r).kstack = some g at second
    by_cases here : q = np
    · by_cases there : r = np
      · exact here.trans there.symm
      · rw [here, self] at first
        rw [other there] at second
        exact absurd first (theirs r g there second).1
    · rw [other here] at first
      by_cases there : r = np
      · rw [there, self] at second
        exact absurd second (theirs q g here first).1
      · rw [other there] at second
        exact ok.unique first second
  · intro q isUnused
    change (Function.update s.ptable np proc q).state = .unused at isUnused
    change (Function.update s.ptable np proc q).kstack = none
    by_cases here : q = np
    · subst here
      rw [self] at isUnused ⊢
      exact unused isUnused
    · rw [other here] at isUnused ⊢
      exact ok.unused isUnused
  · intro q
    change (Function.update s.ptable np proc q).state ≠ _ →
      (Function.update s.ptable np proc q).state ≠ _ →
      ∃ g, (Function.update s.ptable np proc q).kstack = some g
    by_cases here : q = np
    · subst here
      rw [self]
      exact stacked
    · rw [other here]
      exact ok.stacked
  · intro q g has away alive
    change (Function.update s.ptable np proc q).kstack = some g at has
    change (Function.update s.ptable np proc q).state ≠ _ at alive
    by_cases here : q = np
    · subst here
      rw [self] at has
      exact (mine g has).2
    · rw [other here] at has alive
      change context q = some g ∧ Runs s.initproc q true .running (thread g)
      rw [contexts q here, (theirs q g here has).2.2]
      exact ok.parked has away alive
  · intro c g onStack
    obtain ⟨q, has, kstack, runs⟩ := ok.executing onStack
    have here : q ≠ np := by
      rintro rfl
      exact off c has
    refine ⟨q, has, ?_, ?_⟩
    · change (Function.update s.ptable np proc q).kstack = some g
      rwa [other here]
    · change Runs s.initproc q _ (Function.update s.ptable np proc q).state
        (thread g)
      rwa [other here, (theirs q g here kstack).2.2]
  · intro c onScheduler
    have before := ok.scheduling onScheduler
    change SchedulerOk (Function.update s.ptable np proc) _ (s.cpu c).proc
      (s.cpu c).point
    cases point : (s.cpu c).point with
    | idle | scan i =>
        rw [point] at before
        exact before
    | switched i =>
        rw [point] at before
        obtain ⟨⟨q, has, stopped⟩, held⟩ := before
        have here : q ≠ np := by
          rintro rfl
          exact off c has
        exact ⟨⟨q, has, by rwa [other here]⟩, held⟩
  · intro q isRunning
    change (Function.update s.ptable np proc q).state = .running at isRunning
    by_cases here : q = np
    · subst here
      rw [self] at isRunning
      exact absurd isRunning notRunning
    · rw [other here] at isRunning
      exact ok.running isRunning
  · intro c q has
    have here : q ≠ np := by
      rintro rfl
      exact off c has
    change (Function.update s.ptable np proc q).state ≠ _ ∧
      (Function.update s.ptable np proc q).state ≠ _
    rw [other here]
    exact ok.live has

/-- An entry in `EMBRYO` or `UNUSED` has no CPU. -/
theorem off_of_not_live (ok : StacksOk s)
    (dead : (s.ptable p).state = .unused ∨ (s.ptable p).state = .embryo)
    (c : Fin cpus) : (s.cpu c).proc ≠ some p := by
  intro has
  rcases dead with unused | embryo
  · exact (ok.live has).1 unused
  · exact (ok.live has).2 embryo

/-- A CPU without the lock works for a `RUNNING` process. -/
theorem running_of_unheld (ok : StacksOk s) (unheld : s.lock ≠ some c)
    (has : (s.cpu c).proc = some p) : (s.ptable p).state = .running := by
  cases stack : (s.cpu c).stack with
  | some g =>
      have runs := (ok.of_current stack has).2
      rw [decide_eq_false unheld] at runs
      exact runs.running_of_free
  | none =>
      have before := ok.scheduling stack
      cases point : (s.cpu c).point with
      | idle =>
          rw [point, has] at before
          cases before.1
      | scan i | switched i =>
          rw [point] at before
          exact absurd before.2 unheld

theorem childOk_update {s next : System slots cpus Other} {np : Fin slots}
    {proc : Proc slots (Channel slots Other)} {stmt : Stmt slots Other}
    (table : next.ptable = Function.update s.ptable np proc)
    (forker : ∀ q, q ≠ np → next.past.forker q = s.past.forker q)
    (before : ChildOk s p stmt) (unmentioned : stmt.child ≠ some np) :
    ChildOk next p stmt := by
  intro m about
  have other : m ≠ np := by
    rintro rfl
    exact unmentioned about
  have same : next.ptable m = s.ptable m := by
    rw [table, Function.update_of_ne other]
  rw [same, forker m other]
  exact before m about

/-- No statement is about an entry that is not in `EMBRYO`. -/
theorem unmentioned_of_not_embryo (ok : StacksOk s) {np : Fin slots}
    (other : (s.ptable np).state ≠ .embryo) {stmt : Stmt slots Other}
    (kstack : (s.ptable p).kstack = some f) (member : stmt ∈ s.thread f) :
    stmt.child ≠ some np := by
  intro about
  exact other (ok.child kstack member np about).1

/-- An entry becomes free, and its kernel stack with it. -/
theorem freeEntry (ok : StacksOk s) {np : Fin slots}
    (off : ∀ c, (s.cpu c).proc ≠ some np)
    (unmentioned : ∀ q g stmt, (s.ptable q).kstack = some g →
      stmt ∈ s.thread g → stmt.child ≠ some np)
    {proc : Proc slots (Channel slots Other)} {frame : Nat → FrameUse}
    {past : Past slots} (state : proc.state = .unused)
    (kstack : proc.kstack = none)
    (frames : ∀ g, (s.ptable np).kstack ≠ some g → frame g = s.frame g)
    (forker : past.forker = s.past.forker) :
    StacksOk { s with
      ptable := Function.update s.ptable np proc
      frame := frame
      past := past } := by
  refine ok.entry off (by simp [state]) (fun _ => kstack)
    (fun used => absurd state used) ?_ ?_ (fun _ _ => rfl) ?_
  · intro g has
    rw [kstack] at has
    cases has
  · intro q g other has
    refine ⟨by simp [kstack], frames g ?_, rfl⟩
    intro same
    exact other (ok.unique has same)
  · intro q g stmt has member
    have other : q ≠ np := by
      rintro rfl
      rw [Function.update_self, kstack] at has
      cases has
    rw [Function.update_of_ne other] at has
    refine childOk_update (s := s) rfl (fun q _ => ?_) (ok.child has member)
      (unmentioned q g stmt has member)
    exact congrFun forker q

theorem allocate (ok : StacksOk s) {np : Fin slots}
    (unused : (s.ptable np).state = .unused) : StacksOk (s.allocate p np) := by
  have kstack := ok.unused unused
  refine ok.entry (ok.off_of_not_live (.inl unused)) (by simp [embryoEntry])
    (by simp [embryoEntry]) (by simp [embryoEntry]) ?_ ?_ (fun _ _ => rfl) ?_
  · intro g has
    rw [show (embryoEntry s.nextpid (s.ptable np)).kstack = none from kstack] at has
    cases has
  · intro q g other has
    refine ⟨?_, rfl, rfl⟩
    rw [show (embryoEntry s.nextpid (s.ptable np)).kstack = none from kstack]
    simp
  · intro q g stmt has member
    have other : q ≠ np := by
      rintro rfl
      rw [Function.update_self] at has
      cases kstack.symm.trans has
    rw [Function.update_of_ne other] at has
    refine childOk_update (s := s) rfl (fun q elsewhere => ?_) (ok.child has member)
      (ok.unmentioned_of_not_embryo (by simp [unused]) has member)
    exact Function.update_of_ne elsewhere _ _

theorem noChild_forkret :
    NoChild (forkretCode : List (Stmt slots Other)) := by
  simp [NoChild, forkretCode, Stmt.child]

theorem giveStack (ok : StacksOk s) {np : Fin slots} {g : Nat}
    (embryo : (s.ptable np).state = .embryo) (free : s.frame g = .free) :
    StacksOk (s.giveStack np g) := by
  have fresh {q : Fin slots} {h : Nat} (has : (s.ptable q).kstack = some h) :
      h ≠ g := by
    rintro rfl
    cases free.symm.trans (ok.frame has)
  refine ok.entry (ok.off_of_not_live (.inr embryo)) (by simp [embryo])
    (by simp [embryo]) (fun _ => by simp [embryo]) ?_ ?_ ?_ ?_
  · intro h has
    cases Option.some.inj has
    refine ⟨Function.update_self _ _ _, Function.update_self _ _ _, ?_⟩
    change Runs s.initproc np true .running
      (Function.update s.thread g forkretCode g)
    rw [Function.update_self]
    simp [forkretCode, Runs]
  · intro q h other has
    refine ⟨?_, Function.update_of_ne (fresh has) _ _,
      Function.update_of_ne (fresh has) _ _⟩
    intro same
    exact fresh has (Option.some.inj same).symm
  · intro q other
    exact Function.update_of_ne other _ _
  · intro q h stmt has member
    change stmt ∈ Function.update s.thread g forkretCode h at member
    by_cases here : q = np
    · subst here
      rw [Function.update_self] at has
      cases Option.some.inj has
      rw [Function.update_self] at member
      exact childOk_of_none (noChild_forkret stmt member)
    · rw [Function.update_of_ne here] at has
      rw [Function.update_of_ne (fresh has)] at member
      intro m about
      have before := ok.child has member m about
      change (Function.update s.ptable np _ m).state = _ ∧ s.past.forker m = _ ∧
        (_ → (Function.update s.ptable np _ m).kstack ≠ none)
      by_cases same : m = np
      · subst same
        rw [Function.update_self]
        exact ⟨embryo, before.2.1, fun _ => by simp⟩
      · rwa [Function.update_of_ne same]

/-- The child of a `fork` becomes `RUNNABLE`. -/
theorem startEntry (ok : StacksOk s) {np : Fin slots} {past : Past slots}
    (embryo : (s.ptable np).state = .embryo) (kstack : (s.ptable np).kstack = some f)
    (unmentioned : ∀ q g stmt, (s.ptable q).kstack = some g →
      stmt ∈ s.thread g → stmt.child ≠ some np)
    (forker : past.forker = s.past.forker) :
    StacksOk { s with
      ptable := s.ptable.setState np .runnable
      past := past } := by
  have off := ok.off_of_not_live (.inr embryo)
  refine ok.entry off (by simp) (by simp) (fun _ _ => ⟨f, kstack⟩) ?_ ?_
    (fun _ _ => rfl) ?_
  · intro g has
    cases kstack.symm.trans has
    refine ⟨ok.frame kstack, ok.parked kstack ?_ (by simp [embryo])⟩
    intro c onStack
    obtain ⟨q, has, theirs, -⟩ := ok.executing onStack
    cases ok.unique theirs kstack
    exact off c has
  · intro q g other has
    refine ⟨?_, rfl, rfl⟩
    intro same
    exact other (ok.unique has same)
  · intro q g stmt has member
    have before : (s.ptable q).kstack = some g := by
      by_cases here : q = np
      · subst here
        rwa [Function.update_self] at has
      · rwa [Function.update_of_ne here] at has
    refine childOk_update (s := s) rfl (fun q _ => ?_) (ok.child before member)
      (unmentioned q g stmt before member)
    exact congrFun forker q

/-- A process that has given up its state leaves its CPU: `swtch` saves the
context on its stack and returns to the scheduler. -/
theorem swtch (ok : StacksOk s) (stack : (s.cpu c).stack = some f)
    (proc : (s.cpu c).proc = some p) {rest : List (Stmt slots Other)}
    (code : s.thread f = .sched :: rest) (held : s.lock = some c)
    (stopped : (s.ptable p).state ≠ .running) :
    StacksOk { (s.setThread f rest).setCpu c { s.cpu c with stack := none } with
      context := Function.update s.context p (some f) } := by
  obtain ⟨mine, runs⟩ := ok.of_current stack proc
  have self : Function.update s.cpu c { s.cpu c with stack := none } c =
      { s.cpu c with stack := none } :=
    Function.update_self _ _ _
  have other {c' : Fin cpus} (elsewhere : c' ≠ c) :
      Function.update s.cpu c { s.cpu c with stack := none } c' = s.cpu c' :=
    Function.update_of_ne elsewhere _ _
  have sameProc (c' : Fin cpus) :
      (Function.update s.cpu c { s.cpu c with stack := none } c').proc =
        (s.cpu c').proc := by
    by_cases here : c' = c
    · subst here
      rw [self]
    · rw [other here]
  refine ⟨ok.frame, ok.unique, ok.unused, ok.stacked, ?_, ?_, ?_, ?_, ?_, ?_,
    ?_, ?_⟩
  · intro q g has gone alive
    change Function.update s.context p (some f) q = some g ∧
      Runs s.initproc q true .running (Function.update s.thread f rest g)
    by_cases here : q = p
    · subst here
      cases mine.symm.trans has
      rw [Function.update_self, Function.update_self]
      rw [code] at runs
      rcases runs.2 with zombie | ⟨-, resumed⟩
      · exact absurd zombie alive
      · exact ⟨rfl, resumed⟩
    · have elsewhere : g ≠ f := by
        rintro rfl
        exact here (ok.unique has mine)
      rw [Function.update_of_ne here, Function.update_of_ne elsewhere]
      refine ok.parked has (fun c' onStack => ?_) alive
      by_cases there : c' = c
      · subst there
        exact elsewhere (Option.some.inj (onStack.symm.trans stack))
      · refine gone c' ?_
        change (Function.update s.cpu c _ c').stack = some g
        rwa [other there]
  · intro c' g onStack
    change (Function.update s.cpu c _ c').stack = some g at onStack
    have there : c' ≠ c := by
      rintro rfl
      rw [self] at onStack
      cases onStack
    rw [other there] at onStack
    obtain ⟨q, has, theirs, before⟩ := ok.executing onStack
    have elsewhere : g ≠ f := by
      rintro rfl
      cases ok.unique theirs mine
      exact there (ok.single has proc)
    refine ⟨q, (sameProc c').trans has, theirs, ?_⟩
    change Runs s.initproc q _ _ (Function.update s.thread f rest g)
    rwa [Function.update_of_ne elsewhere]
  · intro c' g onStack
    change (Function.update s.cpu c _ c').stack = some g at onStack
    change ∃ i, (Function.update s.cpu c _ c').point = .switched i
    by_cases here : c' = c
    · subst here
      rw [self] at onStack
      cases onStack
    · rw [other here] at onStack ⊢
      exact ok.away onStack
  · intro c' onScheduler
    change (Function.update s.cpu c _ c').stack = none at onScheduler
    change SchedulerOk s.ptable (s.lock = some c') (Function.update s.cpu c _ c').proc
      (Function.update s.cpu c _ c').point
    by_cases here : c' = c
    · subst here
      rw [self]
      obtain ⟨i, point⟩ := ok.away stack
      change SchedulerOk s.ptable _ (s.cpu c').proc (s.cpu c').point
      rw [point]
      exact ⟨⟨p, proc, stopped⟩, held⟩
    · rw [other here] at onScheduler ⊢
      exact ok.scheduling onScheduler
  · intro c' c'' q first second
    exact ok.single ((sameProc c').symm.trans first) ((sameProc c'').symm.trans second)
  · intro q isRunning
    obtain ⟨c', has⟩ := ok.running isRunning
    exact ⟨c', (sameProc c').trans has⟩
  · intro c' q has
    exact ok.live ((sameProc c').symm.trans has)
  · intro q g stmt has member
    change stmt ∈ Function.update s.thread f rest g at member
    refine ok.child has (?_ : stmt ∈ s.thread g)
    by_cases here : g = f
    · subst here
      rw [Function.update_self] at member
      rw [code]
      exact List.mem_cons_of_mem _ member
    · rwa [Function.update_of_ne here] at member

/-- `scheduler` goes on without a process. -/
theorem reschedule (ok : StacksOk s) (stack : (s.cpu c).stack = none)
    {cpu : Cpu slots} {lock : Option (Fin cpus)} (proc : cpu.proc = none)
    (still : cpu.stack = none)
    (locks : ∀ c', c' ≠ c → (lock = some c' ↔ s.lock = some c'))
    (point : SchedulerOk s.ptable (lock = some c) none cpu.point) :
    StacksOk { s.setCpu c cpu with lock := lock } := by
  have self : Function.update s.cpu c cpu c = cpu := Function.update_self _ _ _
  have other {c' : Fin cpus} (elsewhere : c' ≠ c) :
      Function.update s.cpu c cpu c' = s.cpu c' :=
    Function.update_of_ne elsewhere _ _
  have procOf {c' : Fin cpus} {q : Fin slots}
      (has : (Function.update s.cpu c cpu c').proc = some q) :
      c' ≠ c ∧ (s.cpu c').proc = some q := by
    have there : c' ≠ c := by
      rintro rfl
      rw [self, proc] at has
      cases has
    rw [other there] at has
    exact ⟨there, has⟩
  have stackOf {c' : Fin cpus} {g : Nat}
      (onStack : (Function.update s.cpu c cpu c').stack = some g) :
      c' ≠ c ∧ (s.cpu c').stack = some g := by
    have there : c' ≠ c := by
      rintro rfl
      rw [self, still] at onStack
      cases onStack
    rw [other there] at onStack
    exact ⟨there, onStack⟩
  have sameLock {c' : Fin cpus} (there : c' ≠ c) :
      decide (lock = some c') = decide (s.lock = some c') :=
    decide_eq_decide.mpr (locks c' there)
  refine ⟨ok.frame, ok.unique, ok.unused, ok.stacked, ?_, ?_, ?_, ?_, ?_, ?_,
    ?_, ok.child⟩
  · intro q g has gone alive
    refine ok.parked has (fun c' onStack => ?_) alive
    have there : c' ≠ c := by
      rintro rfl
      cases stack.symm.trans onStack
    refine gone c' ?_
    change (Function.update s.cpu c cpu c').stack = some g
    rwa [other there]
  · intro c' g onStack
    obtain ⟨there, before⟩ := stackOf onStack
    obtain ⟨q, has, theirs, runs⟩ := ok.executing before
    refine ⟨q, ?_, theirs, ?_⟩
    · change (Function.update s.cpu c cpu c').proc = some q
      rwa [other there]
    · change Runs s.initproc q (decide (lock = some c')) _ _
      rwa [sameLock there]
  · intro c' g onStack
    obtain ⟨there, before⟩ := stackOf onStack
    change ∃ i, (Function.update s.cpu c cpu c').point = .switched i
    rw [other there]
    exact ok.away before
  · intro c' onScheduler
    change (Function.update s.cpu c cpu c').stack = none at onScheduler
    change SchedulerOk s.ptable (lock = some c') (Function.update s.cpu c cpu c').proc
      (Function.update s.cpu c cpu c').point
    by_cases here : c' = c
    · subst here
      rw [self, proc]
      exact point
    · rw [other here] at onScheduler ⊢
      rw [propext (locks c' here)]
      exact ok.scheduling onScheduler
  · intro c' c'' q first second
    exact ok.single (procOf first).2 (procOf second).2
  · intro q isRunning
    obtain ⟨c', has⟩ := ok.running isRunning
    have there : c' ≠ c := by
      rintro rfl
      have before := ok.scheduling stack
      cases at_ : (s.cpu c').point with
      | idle | scan i =>
          rw [at_, has] at before
          cases before.1
      | switched i =>
          rw [at_] at before
          obtain ⟨⟨r, same, stopped⟩, -⟩ := before
          cases has.symm.trans same
          exact stopped isRunning
    refine ⟨c', ?_⟩
    change (Function.update s.cpu c cpu c').proc = some q
    rwa [other there]
  · intro c' q has
    exact ok.live (procOf has).2

/-- While a CPU holds the lock, a process in any other state than `RUNNING` has
no other CPU. -/
theorem off_of_held (ok : StacksOk s) {q : Fin slots} (held : s.lock = some c)
    (notMine : (s.cpu c).proc ≠ some q) (stopped : (s.ptable q).state ≠ .running)
    (c' : Fin cpus) : (s.cpu c').proc ≠ some q := by
  intro has
  by_cases here : c' = c
  · exact notMine (here ▸ has)
  · refine stopped (ok.running_of_unheld ?_ has)
    rw [held]
    exact fun same => here (Option.some.inj same).symm

/-- `scheduler` switches to a `RUNNABLE` process. -/
theorem dispatch (ok : StacksOk s) {i : Nat} (stack : (s.cpu c).stack = none)
    (point : (s.cpu c).point = .scan i) (runnable : (s.ptable p).state = .runnable) :
    StacksOk { s.setCpu c
        { proc := some p, stack := s.context p, point := .switched i } with
      ptable := s.ptable.setState p .running } := by
  have scanning := ok.scheduling stack
  rw [point] at scanning
  obtain ⟨idle, held⟩ := scanning
  have off := ok.off_of_held held (by simp [idle]) (q := p) (by simp [runnable])
  obtain ⟨f, mine⟩ := ok.stacked (p := p) (by simp [runnable]) (by simp [runnable])
  have unstacked (c' : Fin cpus) : (s.cpu c').stack ≠ some f := by
    intro onStack
    obtain ⟨q, has, theirs, -⟩ := ok.executing onStack
    cases ok.unique theirs mine
    exact off c' has
  obtain ⟨context, resumed⟩ := ok.parked mine unstacked (by simp [runnable])
  rw [context]
  generalize cpu_eq : Cpu.mk (some p) (some f) (.switched i) = cpu
  have self : Function.update s.cpu c cpu c = cpu := Function.update_self _ _ _
  have other {c' : Fin cpus} (elsewhere : c' ≠ c) :
      Function.update s.cpu c cpu c' = s.cpu c' :=
    Function.update_of_ne elsewhere _ _
  have kstack (q : Fin slots) :
      ((s.ptable.setState p .running) q).kstack = (s.ptable q).kstack :=
    ProcTable.kstack_setState _ _ _ _
  have state {q : Fin slots} (elsewhere : q ≠ p) :
      ((s.ptable.setState p .running) q).state = (s.ptable q).state :=
    ProcTable.state_setState_of_ne _ _ elsewhere
  have nowRunning : ((s.ptable.setState p .running) p).state = .running :=
    ProcTable.state_setState_self _ _ _
  refine ⟨?_, ?_, ?_, ?_, ?_, ?_, ?_, ?_, ?_, ?_, ?_, ?_⟩
  · intro q g has
    exact ok.frame ((kstack q).symm.trans has)
  · intro q r g first second
    exact ok.unique ((kstack q).symm.trans first) ((kstack r).symm.trans second)
  · intro q isUnused
    have elsewhere : q ≠ p := by
      rintro rfl
      cases nowRunning.symm.trans isUnused
    exact (kstack q).trans (ok.unused ((state elsewhere).symm.trans isUnused))
  · intro q used grown
    change ∃ g, ((s.ptable.setState p .running) q).kstack = some g
    rw [kstack q]
    by_cases here : q = p
    · exact ⟨f, here ▸ mine⟩
    · exact ok.stacked (state here ▸ used) (state here ▸ grown)
  · intro q g has gone alive
    have before := (kstack q).symm.trans has
    have elsewhere : q ≠ p := by
      rintro rfl
      cases before.symm.trans mine
      refine gone c ?_
      change (Function.update s.cpu c cpu c).stack = some f
      rw [self, ← cpu_eq]
    refine ok.parked before (fun c' onStack => gone c' ?_) (state elsewhere ▸ alive)
    have there : c' ≠ c := by
      rintro rfl
      cases stack.symm.trans onStack
    change (Function.update s.cpu c cpu c').stack = some g
    rwa [other there]
  · intro c' g onStack
    change (Function.update s.cpu c cpu c').stack = some g at onStack
    change ∃ q, (Function.update s.cpu c cpu c').proc = some q ∧
      ((s.ptable.setState p .running) q).kstack = some g ∧
      Runs s.initproc q (decide (s.lock = some c'))
        ((s.ptable.setState p .running) q).state (s.thread g)
    by_cases here : c' = c
    · subst here
      rw [self, ← cpu_eq] at onStack ⊢
      cases onStack
      refine ⟨p, rfl, (kstack p).trans mine, ?_⟩
      rwa [nowRunning, decide_eq_true held]
    · rw [other here] at onStack ⊢
      obtain ⟨q, has, theirs, runs⟩ := ok.executing onStack
      have elsewhere : q ≠ p := by
        rintro rfl
        exact off c' has
      refine ⟨q, has, (kstack q).trans theirs, ?_⟩
      rwa [state elsewhere]
  · intro c' g onStack
    change (Function.update s.cpu c cpu c').stack = some g at onStack
    change ∃ i, (Function.update s.cpu c cpu c').point = .switched i
    by_cases here : c' = c
    · subst here
      rw [self, ← cpu_eq]
      exact ⟨i, rfl⟩
    · rw [other here] at onStack ⊢
      exact ok.away onStack
  · intro c' onScheduler
    change (Function.update s.cpu c cpu c').stack = none at onScheduler
    change SchedulerOk (s.ptable.setState p .running) (s.lock = some c')
      (Function.update s.cpu c cpu c').proc (Function.update s.cpu c cpu c').point
    have there : c' ≠ c := by
      rintro rfl
      rw [self, ← cpu_eq] at onScheduler
      cases onScheduler
    rw [other there] at onScheduler ⊢
    have before := ok.scheduling onScheduler
    cases at_ : (s.cpu c').point with
    | idle | scan j =>
        rw [at_] at before
        exact before
    | switched j =>
        rw [at_] at before
        obtain ⟨⟨q, has, stopped⟩, held⟩ := before
        have elsewhere : q ≠ p := by
          rintro rfl
          exact off c' has
        exact ⟨⟨q, has, by rwa [state elsewhere]⟩, held⟩
  · intro c' c'' q first second
    change (Function.update s.cpu c cpu c').proc = some q at first
    change (Function.update s.cpu c cpu c'').proc = some q at second
    by_cases here : c' = c
    · by_cases there : c'' = c
      · exact here.trans there.symm
      · rw [here, self, ← cpu_eq] at first
        cases Option.some.inj first
        rw [other there] at second
        exact absurd second (off c'')
    · rw [other here] at first
      by_cases there : c'' = c
      · rw [there, self, ← cpu_eq] at second
        cases Option.some.inj second
        exact absurd first (off c')
      · rw [other there] at second
        exact ok.single first second
  · intro q isRunning
    by_cases here : q = p
    · refine ⟨c, ?_⟩
      change (Function.update s.cpu c cpu c).proc = some q
      rw [self, ← cpu_eq, here]
    · obtain ⟨c', has⟩ := ok.running ((state here).symm.trans isRunning)
      have there : c' ≠ c := by
        rintro rfl
        cases idle.symm.trans has
      refine ⟨c', ?_⟩
      change (Function.update s.cpu c cpu c').proc = some q
      rwa [other there]
  · intro c' q has
    change (Function.update s.cpu c cpu c').proc = some q at has
    change ((s.ptable.setState p .running) q).state ≠ _ ∧
      ((s.ptable.setState p .running) q).state ≠ _
    by_cases here : q = p
    · subst here
      simp [nowRunning]
    · have there : c' ≠ c := by
        rintro rfl
        rw [self, ← cpu_eq] at has
        exact here (Option.some.inj has).symm
      rw [other there] at has
      rw [state here]
      exact ok.live has
  · intro q g stmt has member
    have unmentioned : stmt.child ≠ some p :=
      ok.unmentioned_of_not_embryo (by simp [runnable]) ((kstack q).symm.trans has) member
    exact childOk_update (s := s) rfl (fun _ _ => rfl)
      (ok.child ((kstack q).symm.trans has) member) unmentioned

/-- A turn under an unchanged lock, after which the state of the process is
`state`. -/
theorem turnTable (ok : StacksOk s) (stack : (s.cpu c).stack = some f)
    (proc : (s.cpu c).proc = some p)
    {t : ProcTable slots (Channel slots Other)} {held : Bool} {state : ProcState}
    {code : List (Stmt slots Other)} {past : Past slots}
    (lock : decide (s.lock = some c) = held)
    (kstack : ∀ q, (t q).kstack = (s.ptable q).kstack)
    (others : ∀ q, q ≠ p → (t q).state = (s.ptable q).state ∨
      (s.ptable q).state = .sleeping ∧ (t q).state = .runnable)
    (mine : (t p).state = state) (runs : Runs s.initproc p held state code)
    (children : ∀ stmt ∈ code, ChildOk s p stmt)
    (forker : past.forker = s.past.forker) :
    StacksOk { s with
      ptable := t
      thread := Function.update s.thread f code
      past := past } := by
  subst lock mine
  exact ok.turn stack proc kstack others (fun _ _ => .rfl) runs children forker

/-- A turn that leaves the table as it is. -/
theorem turnThread (ok : StacksOk s) (stack : (s.cpu c).stack = some f)
    (proc : (s.cpu c).proc = some p) {code : List (Stmt slots Other)}
    {past : Past slots}
    (runs : Runs s.initproc p (decide (s.lock = some c)) (s.ptable p).state code)
    (children : ∀ stmt ∈ code, ChildOk s p stmt)
    (forker : past.forker = s.past.forker) :
    StacksOk { s.setThread f code with past := past } :=
  ok.turn stack proc (fun _ => rfl) (fun _ _ => .inl rfl) (fun _ _ => .rfl) runs
    children forker

/-- A turn in which the process keeps its state. -/
theorem turnAwakened (ok : StacksOk s) (stack : (s.cpu c).stack = some f)
    (proc : (s.cpu c).proc = some p)
    {t : ProcTable slots (Channel slots Other)} {held : Bool}
    {code : List (Stmt slots Other)} {past : Past slots}
    (awakened : Awakened s.ptable t)
    (lock : decide (s.lock = some c) = held)
    (state : (s.ptable p).state = .running)
    (runs : Runs s.initproc p held .running code)
    (children : ∀ stmt ∈ code, ChildOk s p stmt)
    (forker : past.forker = s.past.forker) :
    StacksOk { s with
      ptable := t
      thread := Function.update s.thread f code
      past := past } := by
  refine ok.turnTable stack proc lock (fun q => (awakened q).1)
    (fun q _ => (awakened q).2) ?_ runs children forker
  rcases (awakened p).2 with same | ⟨asleep, -⟩
  · exact same.trans state
  · cases state.symm.trans asleep

end StacksOk

section

variable {s next : System slots cpus Other} {c : Fin cpus} {f : Nat}

/-- Once `fork` is done with its child, no statement is about it. -/
theorem unmentioned_of_popped {p np : Fin slots}
    {rest : List (Stmt slots Other)} (ok : StacksOk s)
    (kstack : (s.ptable p).kstack = some f) (forked : s.past.forker np = some p)
    (childless : NoChild rest) (q : Fin slots) (g : Nat)
    (stmt : Stmt slots Other) (has : (s.ptable q).kstack = some g)
    (member : stmt ∈ (s.setThread f rest).thread g) : stmt.child ≠ some np := by
  intro about
  change stmt ∈ Function.update s.thread f rest g at member
  by_cases here : g = f
  · subst here
    rw [Function.update_self] at member
    rw [childless stmt member] at about
    cases about
  · rw [Function.update_of_ne here] at member
    cases forked.symm.trans (ok.child has member np about).2.1
    exact here (Option.some.inj (has.symm.trans kstack))

/-- A `fork` that fails gives up its child. -/
theorem dropEmbryo_stacksOk {p np : Fin slots} {stmt : Stmt slots Other}
    {rest : List (Stmt slots Other)} {frame : Nat → FrameUse}
    (ok : StacksOk s) (stack : (s.cpu c).stack = some f)
    (proc : (s.cpu c).proc = some p) (here : ChildOk s p stmt)
    (about : stmt.child = some np)
    (after : Runs s.initproc p (decide (s.lock = some c)) (s.ptable p).state rest)
    (childless : NoChild rest)
    (frames : ∀ g, (s.ptable np).kstack ≠ some g → frame g = s.frame g) :
    StacksOk ({ s.setThread f rest with frame := frame }.dropEmbryo np) := by
  obtain ⟨embryo, forked, -⟩ := here np about
  have popped : StacksOk (s.setThread f rest) :=
    ok.turnThread stack proc after
      (fun stmt member => childOk_of_none (childless stmt member)) rfl
  exact popped.freeEntry (popped.off_of_not_live (.inr embryo))
    (unmentioned_of_popped ok (ok.of_current stack proc).1 forked childless)
    rfl rfl frames rfl

/-- A statement of a thread keeps the invariant. -/
theorem runStmt_stacksOk [DecidableEq Other] {stmt : Stmt slots Other}
    {rest : List (Stmt slots Other)} {frame : Option Nat} (ok : StacksOk s)
    (stack : (s.cpu c).stack = some f) (code : s.thread f = stmt :: rest)
    (stepped : s.runStmt c f rest frame stmt = some next) : StacksOk next := by
  obtain ⟨p, proc, kstack, runs⟩ := ok.executing stack
  rw [code] at runs
  have here : ChildOk s p stmt := ok.child kstack (by rw [code]; exact List.mem_cons_self)
  have children (stmt' : Stmt slots Other) (member : stmt' ∈ rest) :
      ChildOk s p stmt' :=
    ok.child kstack (by rw [code]; exact List.mem_cons_of_mem _ member)
  cases stmt with
  | acquire =>
      obtain ⟨-, running, after⟩ := runs
      simp only [System.runStmt] at stepped
      split at stepped <;> cases stepped
      rename_i free
      refine ok.turn stack proc (fun _ => rfl) (fun _ _ => .inl rfl) ?_ ?_
        children rfl
      · intro c' other
        simp [free, other.symm]
      · change Runs s.initproc p _ (s.ptable p).state rest
        rw [running, decide_eq_true rfl]
        exact after
  | release =>
      obtain ⟨-, running, after⟩ := runs
      simp only [System.runStmt] at stepped
      split at stepped <;> cases stepped
      rename_i held
      refine ok.turn stack proc (fun _ => rfl) (fun _ _ => .inl rfl) ?_ ?_
        children rfl
      · intro c' other
        simp [held, other.symm]
      · change Runs s.initproc p _ (s.ptable p).state rest
        rw [running, decide_eq_false (by simp)]
        exact after
  | yieldState =>
      obtain ⟨held, running, after⟩ := runs
      simp only [System.runStmt, proc, Option.map_some] at stepped
      cases stepped
      refine ok.turnTable stack proc held (fun q => ?_) (fun q other => ?_) ?_
        after children rfl
      · exact ProcTable.kstack_setState _ _ _ _
      · exact .inl (ProcTable.state_setState_of_ne _ _ other)
      · exact ProcTable.state_setState_self _ _ _
  | sched =>
      obtain ⟨q, has, stepped⟩ := Option.bind_eq_some_iff.mp stepped
      split at stepped <;> cases stepped
      rename_i guard
      exact ok.swtch stack has code guard.1 guard.2
  | fallAsleep q chan =>
      obtain ⟨rfl, held, running, after⟩ := runs
      cases stepped
      refine ok.turnTable stack proc held (fun r => ?_) (fun r other => ?_) ?_
        after children rfl
      · by_cases same : r = q
        · subst same
          simp [ProcTable.fallAsleep]
        · simp [ProcTable.fallAsleep, same]
      · simp [ProcTable.fallAsleep, other]
      · simp [ProcTable.fallAsleep]
  | tidyUp q =>
      obtain ⟨rfl, held, running, after⟩ := runs
      cases stepped
      exact ok.turnAwakened stack proc (.update rfl (.inl rfl)) held running after
        children rfl
  | wakeup1 chan =>
      obtain ⟨held, running, after⟩ := runs
      cases stepped
      exact ok.turnAwakened stack proc (awakened_wakeup1 _ _) held running after
        children rfl
  | killScan pid =>
      obtain ⟨held, running, after⟩ := runs
      cases stepped
      exact ok.turnAwakened stack proc (awakened_kill _ _) held running after
        children rfl
  | exitScan q =>
      obtain ⟨⟨rfl, -⟩, held, running, after⟩ := runs
      cases stepped
      have awakened := (awakened_wakeParent q s.ptable).trans
        (awakened_reparent q s.initproc _)
      refine ok.turnTable stack proc held (fun r => ?_) (fun r other => ?_) ?_
        after children rfl
      · exact (ProcTable.kstack_setState _ _ _ _).trans (awakened r).1
      · have same := ProcTable.state_setState_of_ne
          (reparent q s.initproc (wakeParent q s.ptable)) .zombie other
        exact (awakened r).2.imp same.trans fun woken =>
          ⟨woken.1, same.trans woken.2⟩
      · exact ProcTable.state_setState_self _ _ _
  | waitScan q =>
      obtain ⟨rfl, held, running, after⟩ := runs
      have locked : s.lock = some c := of_decide_eq_true held
      have afterRelease : Runs s.initproc q true .running (.release :: rest) :=
        ⟨rfl, rfl, after⟩
      have releaseChildren (stmt : Stmt slots Other)
          (member : stmt ∈ .release :: rest) : ChildOk s q stmt := by
        rcases List.mem_cons.mp member with rfl | member
        · exact childOk_of_none rfl
        · exact children stmt member
      simp only [System.runStmt] at stepped
      split at stepped
      · rename_i r found
        obtain ⟨g, stacked, rfl⟩ := Option.map_eq_some_iff.mp stepped
        have zombie : (s.ptable r).state = .zombie := by
          have exited := ProcTable.first_eq_some found
          simp only [Bool.decide_and, Bool.and_eq_true, decide_eq_true_eq] at exited
          exact exited.2
        have mine : (s.cpu c).proc ≠ some r := by
          intro has
          cases proc.symm.trans has
          cases running.symm.trans zombie
        have reaped : StacksOk (s.reap r g) := by
          refine ok.freeEntry (ok.off_of_held locked mine (by simp [zombie]))
            (fun _ _ _ => ok.unmentioned_of_not_embryo (by simp [zombie]))
            rfl rfl (fun h other => ?_) rfl
          refine Function.update_of_ne ?_ _ _
          rintro rfl
          exact other stacked
        have still : ((s.reap r g).ptable q) = s.ptable q := by
          refine Function.update_of_ne ?_ _ _
          rintro rfl
          exact mine proc
        refine reaped.turnThread stack proc ?_ ?_ rfl
        · rw [still, running]
          change Runs _ _ (decide (s.lock = some c)) _ _
          rw [held]
          exact afterRelease
        · intro stmt member
          have before := releaseChildren stmt member
          refine StacksOk.childOk_update (s := s) rfl (fun _ _ => rfl) before ?_
          intro about
          cases (before r about).1.symm.trans zombie
      · split at stepped <;> cases stepped
        · refine ok.turnThread stack proc ?_ releaseChildren rfl
          rw [held, running]
          exact afterRelease
        · have asleep : (s.ptable.fallAsleep q (.proc q) q).state = .sleeping := by
            simp [ProcTable.fallAsleep]
          refine ok.turnTable stack proc held (fun r => ?_) (fun r other => ?_)
            asleep ?_ ?_ rfl
          · by_cases same : r = q
            · subst same
              simp [ProcTable.fallAsleep]
            · simp [ProcTable.fallAsleep, same]
          · simp [ProcTable.fallAsleep, other]
          · simpa [Runs] using after
          · intro stmt member
            simp only [List.mem_cons] at member
            rcases member with rfl | rfl | rfl | member
            · exact childOk_of_none rfl
            · exact childOk_of_none rfl
            · exact childOk_of_none rfl
            · exact children stmt member
  | allocScan q =>
      obtain ⟨rfl, held, running, after, childless⟩ := runs
      simp only [System.runStmt] at stepped
      split at stepped <;> cases stepped
      · rename_i np found
        have unused : (s.ptable np).state = .unused := by
          simpa using ProcTable.first_eq_some found
        have other : q ≠ np := by
          rintro rfl
          cases running.symm.trans unused
        have still : (s.allocate q np).ptable q = s.ptable q :=
          Function.update_of_ne other _ _
        refine (ok.allocate unused).turnThread stack proc ?_ ?_ rfl
        · rw [still, running]
          change Runs _ _ (decide (s.lock = some c)) _ _
          rw [held]
          exact ⟨rfl, rfl, rfl, rfl, rfl, after, childless⟩
        · intro stmt member
          simp only [List.mem_cons] at member
          rcases member with rfl | rfl | member
          · exact childOk_of_none rfl
          · intro m about
            cases about
            refine ⟨?_, Function.update_self _ _ _, False.elim⟩
            change (Function.update s.ptable np _ np).state = .embryo
            rw [Function.update_self]
            rfl
          · exact childOk_of_none (childless stmt member)
      · refine ok.turnThread stack proc ?_ ?_ rfl
        · rw [held, running]
          exact ⟨rfl, rfl, after⟩
        · intro stmt member
          rcases List.mem_cons.mp member with rfl | member
          · exact childOk_of_none rfl
          · exact children stmt member
  | kallocStack q np =>
      obtain ⟨rfl, held, running, after, childless⟩ := runs
      obtain ⟨embryo, forked, -⟩ := here np rfl
      simp only [System.runStmt] at stepped
      split at stepped
      · rename_i g
        split at stepped <;> cases stepped
        rename_i free
        have other : q ≠ np := by
          rintro rfl
          cases running.symm.trans embryo
        have still : (s.giveStack np g).ptable q = s.ptable q :=
          Function.update_of_ne other _ _
        refine (ok.giveStack embryo free).turnThread stack proc ?_ ?_ rfl
        · rw [still, running]
          change Runs _ _ (decide (s.lock = some c)) _ _
          rw [held]
          exact ⟨rfl, rfl, rfl, after, childless⟩
        · intro stmt member
          rcases List.mem_cons.mp member with rfl | member
          · intro m about
            cases about
            have now : (s.giveStack np g).ptable np =
                { s.ptable np with kstack := some g } :=
              Function.update_self _ _ _
            rw [now]
            exact ⟨embryo, forked, fun _ => by simp⟩
          · exact childOk_of_none (childless stmt member)
      · cases stepped
        exact dropEmbryo_stacksOk ok stack proc here rfl (held ▸ running ▸ after)
          childless fun _ _ => rfl
  | copyuvm q np =>
      obtain ⟨rfl, held, running, after, childless⟩ := runs
      simp only [System.runStmt] at stepped
      split at stepped
      · cases stepped
        refine ok.turnThread stack proc ?_ ?_ rfl
        · rw [held, running]
          exact ⟨rfl, rfl, rfl, after, childless⟩
        · intro stmt member
          rcases List.mem_cons.mp member with rfl | member
          · intro m about
            cases about
            exact here np rfl
          · exact children stmt member
      · obtain ⟨g, stacked, rfl⟩ := Option.map_eq_some_iff.mp stepped
        refine dropEmbryo_stacksOk ok stack proc here rfl (held ▸ running ▸ after)
          childless fun h other => ?_
        refine Function.update_of_ne ?_ _ _
        rintro rfl
        exact other stacked
  | setParent q np =>
      obtain ⟨rfl, held, running, after, childless⟩ := runs
      cases stepped
      refine ok.turnAwakened stack proc (.update rfl (.inl rfl)) held running ?_ ?_ rfl
      · exact ⟨rfl, rfl, rfl, rfl, ⟨rfl, rfl, after⟩, by
          simpa [NoChild, Stmt.child] using childless⟩
      · intro stmt member
        simp only [List.mem_cons] at member
        rcases member with rfl | rfl | rfl | member
        · exact childOk_of_none rfl
        · intro m about
          cases about
          exact here np rfl
        · exact childOk_of_none rfl
        · exact children stmt member
  | startChild np =>
      obtain ⟨held, running, after, childless⟩ := runs
      cases stepped
      obtain ⟨embryo, forked, stacked⟩ := here np rfl
      obtain ⟨g, has⟩ := Option.ne_none_iff_exists'.mp (stacked trivial)
      have popped : StacksOk (s.setThread f rest) := by
        refine ok.turnThread stack proc ?_ children rfl
        rw [held, running]
        exact after
      exact popped.startEntry embryo has
        (unmentioned_of_popped ok kstack forked childless) rfl

theorem runScheduler_stacksOk (ok : StacksOk s) (stack : (s.cpu c).stack = none)
    (stepped : s.runScheduler c (s.cpu c).point = some next) : StacksOk next := by
  have before := ok.scheduling stack
  cases point : (s.cpu c).point with
  | idle =>
      rw [point] at before stepped
      simp only [System.runScheduler] at stepped
      split at stepped <;> cases stepped
      rename_i free
      refine ok.reschedule stack before.1 stack (fun c' other => ?_) ⟨rfl, rfl⟩
      simp [free, other.symm]
  | scan i =>
      rw [point] at before stepped
      simp only [System.runScheduler] at stepped
      split at stepped
      · rename_i inside
        split at stepped <;> cases stepped
        · rename_i runnable
          exact ok.dispatch stack point runnable
        · exact ok.reschedule stack before.1 stack (fun _ _ => .rfl)
            ⟨rfl, before.2⟩
      · split at stepped <;> cases stepped
        rename_i held
        refine ok.reschedule stack before.1 stack (fun c' other => ?_)
          ⟨rfl, by simp⟩
        simp [held, other.symm]
  | switched i =>
      rw [point] at before stepped
      cases stepped
      exact ok.reschedule stack rfl stack (fun _ _ => .rfl) ⟨rfl, before.2⟩

/-- A thread with nothing left to do runs without the lock. -/
theorem StacksOk.of_outside {p : Fin slots} (ok : StacksOk s)
    (outside : s.Outside c p f) :
    decide (s.lock = some c) = false ∧ (s.ptable p).state = .running := by
  have runs := (ok.of_current outside.stack outside.proc).2
  rw [outside.empty] at runs
  exact runs

theorem call_runs {p : Fin slots} (call : Call Other) (init : Fin slots)
    (notInit : ¬ (call.isExit = true ∧ p = init)) :
    Runs init p false .running (call.code p) := by
  cases call with
  | exit =>
      have other : p ≠ init := fun same => notInit ⟨rfl, same⟩
      simp [Call.code, Runs, other]
  | fork => simp [Call.code, Runs, NoChild]
  | wait | kill pid | sleep chan => simp [Call.code, sleepCode, Runs]

theorem call_noChild {p : Fin slots} (call : Call Other) :
    NoChild (call.code p) := by
  cases call <;> simp [Call.code, sleepCode, NoChild, Stmt.child]

theorem yield_noChild : NoChild (yieldCode : List (Stmt slots Other)) := by
  simp [yieldCode, NoChild, Stmt.child]

theorem wakeup_noChild (chan : Other) :
    NoChild (wakeupCode chan : List (Stmt slots Other)) := by
  simp [wakeupCode, NoChild, Stmt.child]

theorem childOk_append {p : Fin slots} {code rest : List (Stmt slots Other)}
    (childless : NoChild code) (before : ∀ stmt ∈ rest, ChildOk s p stmt) :
    ∀ stmt ∈ code ++ rest, ChildOk s p stmt := by
  intro stmt member
  rcases List.mem_append.mp member with pushed | rest
  · exact childOk_of_none (childless stmt pushed)
  · exact before stmt rest

/-- Frames of the rest of the kernel. -/
theorem StacksOk.setFrame (ok : StacksOk s) {g : Nat} {use : FrameUse}
    (other : s.frame g ≠ .kstack) : StacksOk (s.setFrame g use) := by
  refine ⟨?_, ok.unique, ok.unused, ok.stacked, ok.parked, ok.executing, ok.away,
    ok.scheduling, ok.single, ok.running, ok.live, ok.child⟩
  intro p h has
  have elsewhere : h ≠ g := by
    rintro rfl
    exact other (ok.frame has)
  exact (Function.update_of_ne elsewhere _ _).trans (ok.frame has)

theorem StacksOk.tick {p : Fin slots} {user copied : Bool} (ok : StacksOk s)
    (stack : (s.cpu c).stack = some f) (proc : (s.cpu c).proc = some p)
    (unheld : decide (s.lock = some c) = false)
    (running : (s.ptable p).state = .running) :
    StacksOk (s.tickThread p f (s.thread f) user copied) := by
  obtain ⟨kstack, runs⟩ := ok.of_current stack proc
  rw [unheld, running] at runs
  have children (stmt : Stmt slots Other) (member : stmt ∈ s.thread f) :
      ChildOk s p stmt :=
    ok.child kstack member
  have once := childOk_append yield_noChild children
  have twice := childOk_append yield_noChild once
  rw [← List.append_assoc] at twice
  have runsTwice := runs.yield_append.yield_append
  rw [← List.append_assoc] at runsTwice
  unfold System.tickThread
  split
  · split
    · refine ok.turnThread stack proc ?_ once rfl
      rw [unheld, running]
      exact runs.yield_append
    · exact ok.turnAwakened stack proc (.update rfl (.inl rfl)) unheld running
        runsTwice twice rfl
  · refine ok.turnThread stack proc ?_ twice rfl
    rw [unheld, running]
    exact runsTwice

/-- A change of the table that is not about kernel stacks but may wake
processes. -/
theorem StacksOk.awaken {t : ProcTable slots (Channel slots Other)}
    {past : Past slots} (ok : StacksOk s) (awakened : Awakened s.ptable t)
    (forker : past.forker = s.past.forker) :
    StacksOk { s with ptable := t, past := past } := by
  have kstack (q : Fin slots) : (t q).kstack = (s.ptable q).kstack :=
    (awakened q).1
  have same {q : Fin slots} {state : ProcState} (now : (t q).state = state)
      (other : state ≠ .runnable) : (s.ptable q).state = state := by
    rcases (awakened q).2 with still | ⟨-, woken⟩
    · exact still.symm.trans now
    · exact absurd (now.symm.trans woken) other
  have still {q : Fin slots} {state : ProcState}
      (before : (s.ptable q).state = state) (other : state ≠ .sleeping) :
      (t q).state = state := by
    rcases (awakened q).2 with still | ⟨asleep, -⟩
    · exact still.trans before
    · exact absurd (before.symm.trans asleep) other
  refine ⟨?_, ?_, ?_, ?_, ?_, ?_, ok.away, ?_, ok.single, ?_, ?_, ?_⟩
  · intro p g has
    exact ok.frame ((kstack p).symm.trans has)
  · intro p q g first second
    exact ok.unique ((kstack p).symm.trans first) ((kstack q).symm.trans second)
  · intro p isUnused
    exact (kstack p).trans (ok.unused (same isUnused (by decide)))
  · intro p used grown
    change ∃ g, (t p).kstack = some g
    rw [kstack p]
    exact ok.stacked (fun before => used (still before (by decide)))
      fun before => grown (still before (by decide))
  · intro p g has gone alive
    exact ok.parked ((kstack p).symm.trans has) gone
      fun before => alive (still before (by decide))
  · intro c g onStack
    obtain ⟨q, has, theirs, runs⟩ := ok.executing onStack
    refine ⟨q, has, (kstack q).trans theirs, ?_⟩
    rcases (awakened q).2 with sameState | ⟨asleep, woken⟩
    · exact sameState ▸ runs
    · rw [asleep] at runs
      exact woken ▸ runs.of_awakened
  · intro c onScheduler
    have before := ok.scheduling onScheduler
    change SchedulerOk t (s.lock = some c) (s.cpu c).proc (s.cpu c).point
    cases point : (s.cpu c).point with
    | idle | scan i =>
        rw [point] at before
        exact before
    | switched i =>
        rw [point] at before
        obtain ⟨⟨q, has, stopped⟩, held⟩ := before
        exact ⟨⟨q, has, fun now => stopped (same now (by decide))⟩, held⟩
  · intro p isRunning
    exact ok.running (same isRunning (by decide))
  · intro c p has
    have before := ok.live has
    exact ⟨fun now => before.1 (same now (by decide)),
      fun now => before.2 (same now (by decide))⟩
  · intro p g stmt has member np about
    obtain ⟨embryo, forked, stacked⟩ :=
      ok.child ((kstack p).symm.trans has) member np about
    refine ⟨still embryo (by decide), ?_, ?_⟩
    · change past.forker np = some p
      rw [forker]
      exact forked
    · change _ → (t np).kstack ≠ none
      rw [kstack np]
      exact stacked

theorem step_stacksOk [DecidableEq Other] {label : Label cpus Other}
    (ok : StacksOk s) (stepped : s.step label = some next) : StacksOk next := by
  cases label with
  | call c call =>
      obtain ⟨p, f, outside, notInit, rfl⟩ := System.step_call stepped
      obtain ⟨unheld, running⟩ := ok.of_outside outside
      refine ok.turnThread outside.stack outside.proc ?_ ?_ rfl
      · rw [unheld, running]
        exact call_runs call s.initproc notInit
      · intro stmt member
        exact childOk_of_none (call_noChild call stmt member)
  | tick c user copied =>
      obtain ⟨p, f, stack, proc, unheld, running, rfl⟩ := System.step_tick stepped
      exact ok.tick stack proc (decide_eq_false unheld) running
  | wakeup c chan =>
      obtain ⟨f, stack, other, rfl⟩ | ⟨-, -, rfl⟩ := System.step_wakeup stepped
      · obtain ⟨p, proc, kstack, runs⟩ := ok.executing stack
        have unheld : decide (s.lock = some c) = false := decide_eq_false other
        rw [unheld] at runs
        have running := runs.running_of_free
        rw [running] at runs
        refine ok.turnThread stack proc ?_
          (childOk_append (wakeup_noChild chan) fun stmt member =>
            ok.child kstack member) rfl
        rw [unheld, running]
        exact runs.wakeup_append chan
      · exact ok.awaken (awakened_wakeup1 _ _) rfl
  | fault c =>
      obtain ⟨p, f, -, rfl⟩ := System.step_fault stepped
      exact ok.awaken (.update rfl (.inl rfl)) rfl
  | uthreadInit c address =>
      obtain ⟨p, f, -, rfl⟩ := System.step_uthreadInit stepped
      exact ok.awaken (.update rfl (.inl rfl)) rfl
  | exec c =>
      obtain ⟨p, f, -, rfl⟩ := System.step_exec stepped
      exact ok.awaken (.refl _) rfl
  | takeFrame g =>
      obtain ⟨free, rfl⟩ := System.step_takeFrame stepped
      exact ok.setFrame (by simp [free])
  | returnFrame g =>
      obtain ⟨used, rfl⟩ := System.step_returnFrame stepped
      exact ok.setFrame (by simp [used])
  | run c frame =>
      obtain ⟨f, stmt, rest, stack, code, stepped⟩ | ⟨stack, stepped⟩ :=
        System.step_run stepped
      · exact runStmt_stacksOk ok stack code stepped
      · exact runScheduler_stacksOk ok stack stepped

theorem boot_stacksOk (boot : s.Boot) : StacksOk s := by
  obtain ⟨f, init, context, frame, thread⟩ := boot.init
  have idle (c : Fin cpus) : (s.cpu c).proc = none ∧ (s.cpu c).stack = none := by
    rw [boot.cpu c]
    exact ⟨rfl, rfl⟩
  have initOnly {p : Fin slots} {g : Nat} (has : (s.ptable p).kstack = some g) :
      p = s.initproc ∧ g = f := by
    by_cases here : p = s.initproc
    · subst here
      rw [init] at has
      exact ⟨rfl, (Option.some.inj has).symm⟩
    · rw [boot.others p here] at has
      cases has
  have states (p : Fin slots) : (s.ptable p).state = .runnable ∧ p = s.initproc ∨
      (s.ptable p).state = .unused ∧ (s.ptable p).kstack = none := by
    by_cases here : p = s.initproc
    · subst here
      rw [init]
      exact .inl ⟨rfl, rfl⟩
    · rw [boot.others p here]
      exact .inr ⟨rfl, rfl⟩
  refine ⟨?_, ?_, ?_, ?_, ?_, ?_, ?_, ?_, ?_, ?_, ?_, ?_⟩
  · intro p g has
    rw [(initOnly has).2]
    exact frame
  · intro p q g first second
    exact (initOnly first).1.trans (initOnly second).1.symm
  · intro p unused
    rcases states p with ⟨runnable, -⟩ | ⟨-, none⟩
    · cases runnable.symm.trans unused
    · exact none
  · intro p used grown
    rcases states p with ⟨-, rfl⟩ | ⟨unused, -⟩
    · rw [init]
      exact ⟨f, rfl⟩
    · exact absurd unused used
  · intro p g has gone alive
    obtain ⟨rfl, rfl⟩ := initOnly has
    rw [thread]
    exact ⟨context, by simp [forkretCode, Runs]⟩
  · intro c g onStack
    cases (idle c).2.symm.trans onStack
  · intro c g onStack
    cases (idle c).2.symm.trans onStack
  · intro c _
    rw [boot.cpu c, boot.lock]
    exact ⟨rfl, by simp⟩
  · intro c c' p has
    cases (idle c).1.symm.trans has
  · intro p running
    rcases states p with ⟨runnable, -⟩ | ⟨unused, -⟩
    · cases runnable.symm.trans running
    · cases unused.symm.trans running
  · intro c p has
    cases (idle c).1.symm.trans has
  · intro p g stmt has member
    rw [(initOnly has).2, thread] at member
    exact childOk_of_none (StacksOk.noChild_forkret stmt member)

theorem run_stacksOk [DecidableEq Other] {s last : System slots cpus Other}
    {labels : List (Label cpus Other)} (boot : s.Boot)
    (ran : run System.step s labels = some last) : StacksOk last :=
  invariant_of_run (fun ok stepped => step_stacksOk ok stepped)
    (boot_stacksOk boot) ran

/-- While `ptable.lock` is free, a process is `RUNNING` exactly if it is the
process of one CPU, and no other process has a CPU on its kernel stack.  At any
time a CPU executes on its own stack or on that of its process, which is in
use. -/
structure System.OneCpuEach (s : System slots cpus Other) : Prop where
  running_iff : s.lock = none → ∀ p, (s.ptable p).state = .running ↔
    ∃! c, (s.cpu c).proc = some p
  notFreed : ∀ c f, (s.cpu c).stack = some f → s.frame f = .kstack ∧
    ∃ p, (s.cpu c).proc = some p ∧ (s.ptable p).kstack = some f
  left : s.lock = none → ∀ p f, (s.ptable p).state = .runnable ∨
      (s.ptable p).state = .sleeping → (s.ptable p).kstack = some f →
    ∀ c, (s.cpu c).stack ≠ some f

/-- In every run of the kernel, a process is run by at most one CPU and its
kernel stack outlives its use. -/
theorem oneCpuEach_of_run [DecidableEq Other] {s last : System slots cpus Other}
    {labels : List (Label cpus Other)} (boot : s.Boot)
    (ran : run System.step s labels = some last) : last.OneCpuEach := by
  have ok := run_stacksOk boot ran
  refine ⟨fun free p => ⟨fun running => ?_, fun unique => ?_⟩, ?_, ?_⟩
  · obtain ⟨c, has⟩ := ok.running running
    exact ⟨c, has, fun c' other => ok.single other has⟩
  · obtain ⟨c, has, -⟩ := unique
    exact ok.running_of_unheld (by simp [free]) has
  · intro c f stack
    obtain ⟨p, has, kstack, -⟩ := ok.executing stack
    exact ⟨ok.frame kstack, p, has, kstack⟩
  · intro free p f stopped kstack c stack
    obtain ⟨q, has, theirs, -⟩ := ok.executing stack
    cases ok.unique theirs kstack
    have running := ok.running_of_unheld (by simp [free]) has
    rcases stopped with runnable | asleep
    · cases running.symm.trans runnable
    · cases running.symm.trans asleep

end

end

/-- Init forks on the first CPU, and the second CPU runs the child. -/
def forkOnTwoCpus : List (Label 2 Unit) :=
  List.replicate 3 (Label.run 0 none) ++ Label.call 0 .fork ::
    List.replicate 3 (Label.run 0 none) ++
    [Label.run 0 (some 1), .run 0 (some 0)] ++ List.replicate 4 (Label.run 0 none) ++
    List.replicate 4 (Label.run 1 none)

theorem forkOnTwoCpus_oneCpuEach :
    ∃ last, run System.step (System.booted 2 2 Unit) forkOnTwoCpus = some last ∧
      last.lock = none ∧ (last.cpu 0).proc = some 0 ∧ (last.cpu 1).proc = some 1 ∧
      (last.cpu 1).stack = some 1 ∧ last.OneCpuEach := by
  have reached : ((run System.step (System.booted 2 2 Unit) forkOnTwoCpus).map
      fun s => (s.lock, (s.cpu 0).proc, (s.cpu 1).proc, (s.cpu 1).stack)) =
      some (none, some 0, some 1, some 1) := by
    decide +kernel
  obtain ⟨last, ran, fields⟩ := Option.map_eq_some_iff.mp reached
  simp only [Prod.mk.injEq] at fields
  obtain ⟨free, first, second, stack⟩ := fields
  exact ⟨last, ran, free, first, second, stack,
    oneCpuEach_of_run (System.booted_boot 2 2) ran⟩

end Xv6.Procs
