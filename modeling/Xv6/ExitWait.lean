import Mathlib.Algebra.GroupWithZero.Nat
import Xv6.ProcStacks

/-!
# `exit` and `wait`

Every step of the kernel either leaves the family of processes alone or is one
of four: a process exits and passes its children to init, `wait` reaps a
child, `allocproc` takes an entry, or `fork` sets the parent of its child.
From this follow who reaps a process, that it is reaped once, and that `wait`
does not sleep while a child of its process has exited.
-/

namespace Xv6.Procs

open LabelledRuns

variable {slots cpus : Nat} {Other : Type}

/-- The process has started and has not exited. -/
def Alive : ProcState → Prop
  | .sleeping | .runnable | .running => True
  | _ => False

/-- A state that a process may have next without `exit`, `wait` or
`allocproc`. -/
def Moves (before after : ProcState) : Prop :=
  after = before ∨ Alive before ∧ Alive after ∨
    before = .embryo ∧ (after = .unused ∨ Alive after)

/-- The numbers of the processes that `wait` has returned. -/
def reapedNumbers : List Event → List Nat
  | [] => []
  | .reaped process _ :: events => process :: reapedNumbers events
  | _ :: events => reapedNumbers events

/-- The step leaves parents and exited processes alone, and whoever falls asleep
in `wait` has no exited child. -/
structure Kept (s next : System slots cpus Other) : Prop where
  init : next.initproc = s.initproc
  parent : ProcTable.Keeps Proc.parent s.ptable next.ptable
  state : ∀ q, Moves (s.ptable q).state (next.ptable q).state
  asleep : ∀ p, next.ptable.Asleep p (.proc p) → s.ptable.Asleep p (.proc p) ∨
    ∀ q, (s.ptable q).parent = some p → (s.ptable q).state ≠ .zombie
  count : next.past.count = s.past.count
  process : next.past.process = s.past.process
  creator : next.past.creator = s.past.creator
  exited : next.past.exited = s.past.exited
  reaped : reapedNumbers next.past.events = reapedNumbers s.past.events

/-- The two states agree on all that concerns families. -/
structure Agrees (s next : System slots cpus Other) : Prop where
  init : next.initproc = s.initproc
  ptable : next.ptable = s.ptable
  past : next.past = s.past

theorem Moves.refl (state : ProcState) : Moves state state :=
  .inl rfl

theorem Moves.alive {before after : ProcState} (moves : Moves before after)
    (alive : Alive before) : Alive after := by
  rcases moves with same | ⟨-, now⟩ | ⟨embryo, -⟩
  · rwa [same]
  · exact now
  · rw [embryo] at alive
    exact alive.elim

theorem Moves.used {before after : ProcState} (moves : Moves before after)
    (used : after ≠ .unused) : before ≠ .unused := by
  rintro rfl
  rcases moves with same | ⟨alive, -⟩ | ⟨embryo, -⟩
  · exact used same
  · exact alive
  · cases embryo

theorem Moves.zombie_iff {before after : ProcState} (moves : Moves before after) :
    after = .zombie ↔ before = .zombie := by
  constructor
  · rintro rfl
    rcases moves with same | ⟨-, alive⟩ | ⟨-, unused | alive⟩
    · exact same.symm
    · exact alive.elim
    · cases unused
    · exact alive.elim
  · rintro rfl
    rcases moves with same | ⟨alive, -⟩ | ⟨embryo, -⟩
    · exact same
    · exact alive.elim
    · cases embryo

theorem moves_of_awakened {t t' : ProcTable slots (Channel slots Other)}
    (awakened : Awakened t t') (q : Fin slots) :
    Moves (t q).state (t' q).state := by
  rcases (awakened q).2 with same | ⟨asleep, woken⟩
  · exact .inl same
  · rw [asleep, woken]
    exact .inr (.inl ⟨trivial, trivial⟩)

theorem moves_update {t : ProcTable slots (Channel slots Other)}
    {p : Fin slots} {proc : Proc slots (Channel slots Other)}
    (moves : Moves (t p).state proc.state) (q : Fin slots) :
    Moves (t q).state (Function.update t p proc q).state := by
  by_cases here : q = p
  · subst here
    rwa [Function.update_self]
  · rw [Function.update_of_ne here]
    exact .refl _

/-- An entry whose state or channel is not that of a sleeper in `wait`. -/
theorem asleep_update {t : ProcTable slots (Channel slots Other)}
    {p q : Fin slots} {proc : Proc slots (Channel slots Other)}
    (other : proc.state = .sleeping → proc.chan = some (.proc p) →
      t.Asleep p (.proc p))
    (asleep : ProcTable.Asleep (Function.update t p proc) q (.proc q)) :
    t.Asleep q (.proc q) := by
  by_cases here : q = p
  · subst here
    simp only [ProcTable.Asleep, Function.update_self] at asleep
    exact other asleep.1 asleep.2
  · simpa only [ProcTable.Asleep, Function.update_of_ne here] using asleep

theorem Kept.of_same {s next : System slots cpus Other}
    (init : next.initproc = s.initproc) (ptable : next.ptable = s.ptable)
    (past : next.past = s.past) : Kept s next where
  init := init
  parent p := by rw [ptable]
  state q := by
    rw [ptable]
    exact .refl _
  asleep p asleep := .inl (by rwa [ptable] at asleep)
  count := by rw [past]
  process := by rw [past]
  creator := by rw [past]
  exited := by rw [past]
  reaped := by rw [past]

/-- Processes are woken, and nothing else happens to families. -/
theorem Kept.of_awakened {s next : System slots cpus Other}
    (init : next.initproc = s.initproc)
    (parent : ProcTable.Keeps Proc.parent s.ptable next.ptable)
    (awakened : Awakened s.ptable next.ptable)
    (asleep : ∀ p, next.ptable.Asleep p (.proc p) → s.ptable.Asleep p (.proc p))
    (count : next.past.count = s.past.count)
    (process : next.past.process = s.past.process)
    (creator : next.past.creator = s.past.creator)
    (exited : next.past.exited = s.past.exited)
    (reaped : reapedNumbers next.past.events = reapedNumbers s.past.events) :
    Kept s next :=
  ⟨init, parent, moves_of_awakened awakened, fun p now => .inl (asleep p now),
    count, process, creator, exited, reaped⟩

/-- One entry changes, and nothing happens to families. -/
theorem Kept.of_update {s next : System slots cpus Other} {p : Fin slots}
    {proc : Proc slots (Channel slots Other)}
    (init : next.initproc = s.initproc)
    (ptable : next.ptable = Function.update s.ptable p proc)
    (parent : proc.parent = (s.ptable p).parent)
    (moves : Moves (s.ptable p).state proc.state)
    (asleep : proc.state = .sleeping → proc.chan = some (.proc p) →
      s.ptable.Asleep p (.proc p))
    (count : next.past.count = s.past.count)
    (process : next.past.process = s.past.process)
    (creator : next.past.creator = s.past.creator)
    (exited : next.past.exited = s.past.exited)
    (reaped : reapedNumbers next.past.events = reapedNumbers s.past.events) :
    Kept s next := by
  refine ⟨init, ?_, ?_, ?_, count, process, creator, exited, reaped⟩
  · rw [ptable]
    exact .update parent
  · rw [ptable]
    exact moves_update moves
  · rw [ptable]
    exact fun q now => .inl (asleep_update asleep now)

section

variable [DecidableEq Other]

/-- What a step does to families. -/
inductive FamilyStep (s next : System slots cpus Other) (label : Label cpus Other) :
    Prop where
  | kept (kept : Kept s next)
  | exits (p : Fin slots) (running : (s.ptable p).state = .running)
      (other : p ≠ s.initproc) (agrees : Agrees (s.exitScan p) next)
  | reaps (c : Fin cpus) (frame : Option Nat) (p q : Fin slots) (f g : Nat)
      (rest : List (Stmt slots Other)) (byRun : label = .run c frame)
      (proc : (s.cpu c).proc = some p) (stack : (s.cpu c).stack = some f)
      (code : s.thread f = .waitScan p :: rest)
      (child : (s.ptable q).parent = some p)
      (zombie : (s.ptable q).state = .zombie) (agrees : Agrees (s.reap q g) next)
  | allocates (p np : Fin slots) (unused : (s.ptable np).state = .unused)
      (agrees : Agrees (s.allocate p np) next)
  | adopts (p np : Fin slots) (running : (s.ptable p).state = .running)
      (embryo : (s.ptable np).state = .embryo) (agrees : Agrees (s.adopt p np) next)

variable {s next : System slots cpus Other}

theorem runStmt_familyStep {c : Fin cpus} {f : Nat} {stmt : Stmt slots Other}
    {rest : List (Stmt slots Other)} {frame : Option Nat} (ok : StacksOk s)
    (stack : (s.cpu c).stack = some f) (code : s.thread f = stmt :: rest)
    (stepped : s.runStmt c f rest frame stmt = some next) :
    FamilyStep s next (.run c frame) := by
  obtain ⟨p, proc, kstack, runs⟩ := ok.executing stack
  rw [code] at runs
  have here : ChildOk s p stmt :=
    ok.child kstack (by rw [code]; exact List.mem_cons_self)
  cases stmt with
  | acquire | release =>
      simp only [System.runStmt] at stepped
      split at stepped <;> cases stepped
      exact .kept (.of_same rfl rfl rfl)
  | yieldState =>
      obtain ⟨held, running, after⟩ := runs
      obtain ⟨q, has, rfl⟩ := Option.map_eq_some_iff.mp stepped
      cases proc.symm.trans has
      refine .kept (.of_update rfl rfl rfl ?_ (by rintro ⟨⟩) rfl rfl rfl rfl rfl)
      rw [running]
      exact .inr (.inl ⟨trivial, trivial⟩)
  | sched =>
      obtain ⟨q, -, stepped⟩ := Option.bind_eq_some_iff.mp stepped
      split at stepped <;> cases stepped
      exact .kept (.of_same rfl rfl rfl)
  | fallAsleep q chan =>
      obtain ⟨rfl, held, running, after⟩ := runs
      cases stepped
      refine .kept (.of_update rfl rfl rfl ?_ (by rintro _ ⟨⟩) rfl rfl rfl rfl rfl)
      rw [running]
      exact .inr (.inl ⟨trivial, trivial⟩)
  | tidyUp q =>
      cases stepped
      exact .kept (.of_update rfl rfl rfl (.refl _) (by rintro _ ⟨⟩) rfl rfl rfl rfl rfl)
  | wakeup1 chan =>
      cases stepped
      exact .kept (.of_awakened rfl (ProcTable.keeps_wakeup1 (fun _ _ => rfl) _ _)
        (awakened_wakeup1 _ _) (fun _ => ProcTable.asleep_of_asleep_wakeup1)
        rfl rfl rfl rfl rfl)
  | killScan pid =>
      cases stepped
      exact .kept (.of_awakened rfl (ProcTable.keeps_kill (fun _ => rfl) _ _)
        (awakened_kill _ _) (fun _ => ProcTable.asleep_of_asleep_kill)
        rfl rfl rfl rfl rfl)
  | exitScan q =>
      obtain ⟨⟨rfl, other⟩, held, running, after⟩ := runs
      cases stepped
      exact .exits q running other ⟨rfl, rfl, rfl⟩
  | waitScan q =>
      obtain ⟨rfl, held, running, after⟩ := runs
      simp only [System.runStmt] at stepped
      split at stepped
      · rename_i r found
        obtain ⟨g, stacked, rfl⟩ := Option.map_eq_some_iff.mp stepped
        have exited := of_decide_eq_true (ProcTable.first_eq_some found)
        exact .reaps c frame q r f g rest rfl proc stack code exited.1 exited.2
          ⟨rfl, rfl, rfl⟩
      · rename_i missing
        split at stepped <;> cases stepped
        · exact .kept (.of_same rfl rfl rfl)
        · refine .kept ⟨rfl, .update rfl, moves_update ?_, fun r asleep => ?_,
            rfl, rfl, rfl, rfl, rfl⟩
          · rw [running]
            exact .inr (.inl ⟨trivial, trivial⟩)
          · rcases ProcTable.asleep_fallAsleep asleep with ⟨rfl, -⟩ | before
            · right
              intro child parent zombie
              have absent := ProcTable.first_eq_none missing child
              exact of_decide_eq_false absent ⟨parent, zombie⟩
            · exact .inl before
  | allocScan q =>
      simp only [System.runStmt] at stepped
      split at stepped <;> cases stepped
      · rename_i np found
        have unused : (s.ptable np).state = .unused := by
          simpa using ProcTable.first_eq_some found
        exact .allocates q np unused ⟨rfl, rfl, rfl⟩
      · exact .kept (.of_same rfl rfl rfl)
  | kallocStack q np =>
      obtain ⟨embryo, -⟩ := here np rfl
      simp only [System.runStmt] at stepped
      split at stepped
      · split at stepped <;> cases stepped
        refine .kept (.of_update rfl rfl rfl (.refl _) ?_ rfl rfl rfl rfl rfl)
        intro asleep
        cases embryo.symm.trans asleep
      · cases stepped
        exact .kept (.of_update rfl rfl rfl (.inr (.inr ⟨embryo, .inl rfl⟩))
          (by rintro ⟨⟩) rfl rfl rfl rfl rfl)
  | copyuvm q np =>
      obtain ⟨embryo, -⟩ := here np rfl
      simp only [System.runStmt] at stepped
      split at stepped
      · cases stepped
        exact .kept (.of_same rfl rfl rfl)
      · obtain ⟨g, -, rfl⟩ := Option.map_eq_some_iff.mp stepped
        exact .kept (.of_update rfl rfl rfl (.inr (.inr ⟨embryo, .inl rfl⟩))
          (by rintro ⟨⟩) rfl rfl rfl rfl rfl)
  | setParent q np =>
      obtain ⟨rfl, held, running, after, childless⟩ := runs
      obtain ⟨embryo, -⟩ := here np rfl
      cases stepped
      exact .adopts q np running embryo ⟨rfl, rfl, rfl⟩
  | startChild np =>
      obtain ⟨embryo, -⟩ := here np rfl
      cases stepped
      exact .kept (.of_update rfl rfl rfl (.inr (.inr ⟨embryo, .inr trivial⟩))
        (by rintro ⟨⟩) rfl rfl rfl rfl rfl)

theorem runScheduler_familyStep {c : Fin cpus} {frame : Option Nat}
    {point : SchedPoint} (stepped : s.runScheduler c point = some next) :
    FamilyStep s next (.run c frame) := by
  cases point with
  | idle =>
      simp only [System.runScheduler] at stepped
      split at stepped <;> cases stepped
      exact .kept (.of_same rfl rfl rfl)
  | scan i =>
      simp only [System.runScheduler] at stepped
      split at stepped
      · split at stepped <;> cases stepped
        · rename_i runnable
          refine .kept (.of_update rfl rfl rfl ?_ (by rintro ⟨⟩) rfl rfl rfl rfl rfl)
          rw [runnable]
          exact .inr (.inl ⟨trivial, trivial⟩)
        · exact .kept (.of_same rfl rfl rfl)
      · split at stepped <;> cases stepped
        exact .kept (.of_same rfl rfl rfl)
  | switched i =>
      cases stepped
      exact .kept (.of_same rfl rfl rfl)

/-- Every step is one of the five kinds. -/
theorem step_familyStep {label : Label cpus Other} (ok : StacksOk s)
    (stepped : s.step label = some next) : FamilyStep s next label := by
  cases label with
  | call c call =>
      obtain ⟨p, f, -, -, rfl⟩ := System.step_call stepped
      exact .kept (.of_same rfl rfl rfl)
  | tick c user copied =>
      obtain ⟨p, f, -, -, -, running, rfl⟩ := System.step_tick stepped
      unfold System.tickThread
      split
      · split
        · exact .kept ⟨rfl, .refl _, fun _ => .refl _, fun _ => .inl, rfl, rfl, rfl,
            rfl, rfl⟩
        · refine .kept (.of_update rfl rfl rfl (.refl _) (fun asleep => ?_) rfl rfl
            rfl rfl rfl)
          cases running.symm.trans asleep
      · exact .kept (.of_same rfl rfl rfl)
  | wakeup c chan =>
      obtain ⟨f, -, -, rfl⟩ | ⟨-, -, rfl⟩ := System.step_wakeup stepped
      · exact .kept (.of_same rfl rfl rfl)
      · exact .kept (.of_awakened rfl
          (ProcTable.keeps_wakeup1 (fun _ _ => rfl) _ _) (awakened_wakeup1 _ _)
          (fun _ => ProcTable.asleep_of_asleep_wakeup1) rfl rfl rfl rfl rfl)
  | fault c =>
      obtain ⟨p, f, outside, rfl⟩ := System.step_fault stepped
      refine .kept (.of_update rfl rfl rfl (.refl _) (fun asleep => ?_) rfl rfl rfl
        rfl rfl)
      cases (ok.of_outside outside).2.symm.trans asleep
  | uthreadInit c address =>
      obtain ⟨p, f, outside, rfl⟩ := System.step_uthreadInit stepped
      refine .kept (.of_update rfl rfl rfl (.refl _) (fun asleep => ?_) rfl rfl rfl
        rfl rfl)
      cases (ok.of_outside outside).2.symm.trans asleep
  | exec c =>
      obtain ⟨p, f, -, rfl⟩ := System.step_exec stepped
      exact .kept ⟨rfl, .refl _, fun _ => .refl _, fun _ => .inl, rfl, rfl, rfl,
        rfl, rfl⟩
  | takeFrame g =>
      obtain ⟨-, rfl⟩ := System.step_takeFrame stepped
      exact .kept (.of_same rfl rfl rfl)
  | returnFrame g =>
      obtain ⟨-, rfl⟩ := System.step_returnFrame stepped
      exact .kept (.of_same rfl rfl rfl)
  | run c frame =>
      obtain ⟨f, stmt, rest, stack, code, stepped⟩ | ⟨-, stepped⟩ :=
        System.step_run stepped
      · exact runStmt_familyStep ok stack code stepped
      · exact runScheduler_familyStep stepped

end

/-- The process that forked `q` is `r`, or it has exited and `r` is init. -/
def System.RightParent (s : System slots cpus Other) (q r : Fin slots) : Prop :=
  if s.past.exited (s.past.creator q) = true then r = s.initproc
  else s.past.process r = s.past.creator q

/-- The invariant of families and of the numbers of processes. -/
structure FamilyOk (s : System slots cpus Other) : Prop where
  init : (s.ptable s.initproc).parent = none
  initAlive : Alive (s.ptable s.initproc).state
  parent : ∀ {q r}, (s.ptable q).parent = some r →
    Alive (s.ptable r).state ∧ q ≠ r ∧ s.RightParent q r
  wait : ∀ {p q}, s.ptable.Asleep p (.proc p) → (s.ptable q).parent = some p →
    (s.ptable q).state ≠ .zombie
  number : ∀ {q}, (s.ptable q).state ≠ .unused → s.past.process q < s.past.count
  past : ∀ {n}, s.past.exited n = true → n < s.past.count
  distinct : ∀ {q r}, (s.ptable q).state ≠ .unused → (s.ptable r).state ≠ .unused →
    s.past.process q = s.past.process r → q = r
  present : ∀ {q}, (s.ptable q).state ≠ .unused → (s.ptable q).state ≠ .zombie →
    s.past.exited (s.past.process q) = false
  gone : ∀ {q}, (s.ptable q).state = .zombie → s.past.exited (s.past.process q) = true
  reaped : ∀ {n}, n ∈ reapedNumbers s.past.events → s.past.exited n = true ∧
    ∀ q, (s.ptable q).state ≠ .unused → s.past.process q ≠ n
  once : (reapedNumbers s.past.events).Nodup

theorem Alive.used {state : ProcState} (alive : Alive state) : state ≠ .unused := by
  rintro rfl
  exact alive

theorem Alive.not_zombie {state : ProcState} (alive : Alive state) :
    state ≠ .zombie := by
  rintro rfl
  exact alive

section

variable [DecidableEq Other] {t : ProcTable slots (Channel slots Other)}
  {p init : Fin slots}

theorem parent_reparentEntry (q r : Fin slots) :
    ((reparentEntry p init t q) r).parent =
      if r = q ∧ (t r).parent = some p then some init else (t r).parent := by
  have kept (t' : ProcTable slots (Channel slots Other)) :
      ((t'.wakeup1 (.proc init)) r).parent = (t' r).parent :=
    ProcTable.keeps_wakeup1 (fun _ _ => rfl) t' (.proc init) r
  unfold reparentEntry
  by_cases child : (t q).parent = some p
  · rw [if_pos child]
    dsimp only
    have renamed : ((Function.update t q { t q with parent := some init }) r).parent =
        if r = q ∧ (t r).parent = some p then some init else (t r).parent := by
      by_cases here : r = q
      · subst here
        simp [child]
      · simp [here]
    split
    · exact (kept _).trans renamed
    · exact renamed
  · rw [if_neg child, if_neg]
    rintro ⟨rfl, has⟩
    exact child has

/-- The loop of `exit` passes every child to init. -/
theorem parent_reparent (other : p ≠ init) (r : Fin slots) :
    ((reparent p init t) r).parent =
      if (t r).parent = some p then some init else (t r).parent := by
  have loop (entries : List (Fin slots)) :
      ((entries.foldl (reparentEntry p init) t) r).parent =
        if r ∈ entries ∧ (t r).parent = some p then some init
        else (t r).parent := by
    induction entries generalizing t with
    | nil => simp
    | cons q entries ih =>
        rw [List.foldl_cons, ih, parent_reparentEntry]
        by_cases child : (t r).parent = some p
        · by_cases here : r = q
          · subst here
            simp [child, other.symm]
          · simp [here]
        · simp [child]
  have all := loop (List.finRange slots)
  simp only [List.mem_finRange, true_and] at all
  exact all

theorem asleep_of_asleep_reparentEntry {q r : Fin slots}
    {chan : Channel slots Other}
    (asleep : (reparentEntry p init t q).Asleep r chan) : t.Asleep r chan := by
  have renamed {t' : ProcTable slots (Channel slots Other)}
      (same : t' = Function.update t q { t q with parent := some init })
      (asleep : t'.Asleep r chan) : t.Asleep r chan := by
    subst same
    have state : ProcTable.Keeps Proc.state t
        (Function.update t q { t q with parent := some init }) :=
      .update rfl
    have chans : ProcTable.Keeps Proc.chan t
        (Function.update t q { t q with parent := some init }) :=
      .update rfl
    exact ⟨(state r).symm.trans asleep.1, (chans r).symm.trans asleep.2⟩
  unfold reparentEntry at asleep
  split at asleep
  · dsimp only at asleep
    split at asleep
    · exact renamed rfl (ProcTable.asleep_of_asleep_wakeup1 asleep)
    · exact renamed rfl asleep
  · exact asleep

theorem asleep_of_asleep_loop {entries : List (Fin slots)} {r : Fin slots}
    {chan : Channel slots Other}
    (asleep : ProcTable.Asleep (entries.foldl (reparentEntry p init) t) r chan) :
    t.Asleep r chan := by
  induction entries generalizing t with
  | nil => exact asleep
  | cons q entries ih => exact asleep_of_asleep_reparentEntry (ih asleep)

/-- If one of the children has exited, the loop of `exit` wakes init. -/
theorem init_awake_of_reparent {q : Fin slots} (child : (t q).parent = some p)
    (zombie : (t q).state = .zombie) :
    ¬ (reparent p init t).Asleep init (.proc init) := by
  have loop (entries : List (Fin slots)) (member : q ∈ entries) :
      ¬ ProcTable.Asleep (entries.foldl (reparentEntry p init) t) init
        (.proc init) := by
    induction entries generalizing t with
    | nil => cases member
    | cons r entries ih =>
        rw [List.foldl_cons]
        by_cases here : q = r
        · subst here
          intro asleep
          have before := asleep_of_asleep_loop asleep
          rw [reparentEntry, if_pos child] at before
          dsimp only at before
          rw [if_pos zombie] at before
          exact ProcTable.not_asleep_wakeup1 _ _ _ before
        · refine ih ?_ ?_ (List.mem_of_ne_of_mem here member)
          · rw [parent_reparentEntry, if_neg (by simp [here])]
            exact child
          · exact (moves_of_awakened (awakened_reparentEntry p init t r) q).zombie_iff.mpr
              zombie
  exact loop (List.finRange slots) (List.mem_finRange q)

theorem parent_awake_of_wakeParent {r : Fin slots} (parent : (t p).parent = some r) :
    ¬ (wakeParent p t).Asleep r (.proc r) := by
  rw [wakeParent, parent]
  exact ProcTable.not_asleep_wakeup1 _ _ _

theorem asleep_of_asleep_wakeParent {r : Fin slots} {chan : Channel slots Other}
    (asleep : (wakeParent p t).Asleep r chan) : t.Asleep r chan := by
  unfold wakeParent at asleep
  split at asleep
  · exact ProcTable.asleep_of_asleep_wakeup1 asleep
  · exact asleep

theorem parent_exitTable (other : p ≠ init) (q : Fin slots) :
    ((exitTable p init t) q).parent =
      if (t q).parent = some p then some init else (t q).parent := by
  have same : ProcTable.Keeps Proc.parent (reparent p init (wakeParent p t))
      (exitTable p init t) :=
    .update rfl
  have before : ProcTable.Keeps Proc.parent t (wakeParent p t) :=
    keeps_wakeParent (fun _ _ => rfl) p t
  rw [same q, parent_reparent other, before q]

/-- The states before the process itself becomes a `ZOMBIE`. -/
theorem moves_exitTable {q : Fin slots} (elsewhere : q ≠ p) :
    Moves (t q).state ((exitTable p init t) q).state := by
  have moves := moves_of_awakened
    ((awakened_wakeParent p t).trans (awakened_reparent p init _)) q
  unfold exitTable
  rwa [ProcTable.state_setState_of_ne _ _ elsewhere]

/-- Who still sleeps in `wait` after an `exit` has no exited child. -/
theorem wait_exitTable {q r : Fin slots} (other : p ≠ init)
    (apart : (t p).parent ≠ some p)
    (wait : t.Asleep r (.proc r) → (t q).parent = some r → (t q).state ≠ .zombie)
    (asleep : (exitTable p init t).Asleep r (.proc r))
    (parent : ((exitTable p init t) q).parent = some r) :
    ((exitTable p init t) q).state ≠ .zombie := by
  have reparented : (reparent p init (wakeParent p t)).Asleep r (.proc r) :=
    ProcTable.asleep_of_asleep_setState (by decide) asleep
  have woken : (wakeParent p t).Asleep r (.proc r) := asleep_of_asleep_loop reparented
  rw [parent_exitTable other] at parent
  intro zombie
  by_cases here : q = p
  · subst here
    rw [if_neg apart] at parent
    exact parent_awake_of_wakeParent parent woken
  · have before := (moves_exitTable here).zombie_iff.mp zombie
    by_cases child : (t q).parent = some p
    · rw [if_pos child] at parent
      cases Option.some.inj parent
      have same : ProcTable.Keeps Proc.parent t (wakeParent p t) :=
        keeps_wakeParent (fun _ _ => rfl) p t
      refine init_awake_of_reparent ((same q).trans child) ?_ reparented
      exact (moves_of_awakened (awakened_wakeParent p t) q).zombie_iff.mpr before
    · rw [if_neg child] at parent
      exact wait (asleep_of_asleep_wakeParent woken) parent before

end

namespace FamilyOk

variable {s next : System slots cpus Other}

theorem congr (agrees : Agrees s next) (ok : FamilyOk s) : FamilyOk next := by
  obtain ⟨init, ptable, past⟩ := agrees
  obtain ⟨ptable', initproc', nextpid', lock', cpu', context', thread', frame',
    past'⟩ := next
  cases init
  cases ptable
  cases past
  exact ⟨ok.init, ok.initAlive, ok.parent, ok.wait, ok.number, ok.past, ok.distinct,
    ok.present, ok.gone, ok.reaped, ok.once⟩

theorem kept (ok : FamilyOk s) (kept : Kept s next) : FamilyOk next := by
  have state (q : Fin slots) := kept.state q
  refine ⟨?_, ?_, ?_, ?_, ?_, ?_, ?_, ?_, ?_, ?_, ?_⟩
  · rw [kept.init, kept.parent]
    exact ok.init
  · rw [kept.init]
    exact (state s.initproc).alive ok.initAlive
  · intro q r parent
    rw [kept.parent] at parent
    obtain ⟨alive, other, right⟩ := ok.parent parent
    refine ⟨(state r).alive alive, other, ?_⟩
    unfold System.RightParent
    rw [kept.exited, kept.creator, kept.init, kept.process]
    exact right
  · intro p q asleep parent zombie
    rw [kept.parent] at parent
    have before := (state q).zombie_iff.mp zombie
    rcases kept.asleep p asleep with slept | childless
    · exact ok.wait slept parent before
    · exact childless q parent before
  · intro q used
    rw [kept.process, kept.count]
    exact ok.number ((state q).used used)
  · intro n exited
    rw [kept.exited] at exited
    rw [kept.count]
    exact ok.past exited
  · intro q r first second same
    rw [kept.process] at same
    exact ok.distinct ((state q).used first) ((state r).used second) same
  · intro q used alive
    rw [kept.exited, kept.process]
    exact ok.present ((state q).used used) fun zombie =>
      alive ((state q).zombie_iff.mpr zombie)
  · intro q zombie
    rw [kept.exited, kept.process]
    exact ok.gone ((state q).zombie_iff.mp zombie)
  · intro n member
    rw [kept.reaped] at member
    rw [kept.exited, kept.process]
    obtain ⟨exited, absent⟩ := ok.reaped member
    exact ⟨exited, fun q used => absent q ((state q).used used)⟩
  · rw [kept.reaped]
    exact ok.once

theorem adopt (ok : FamilyOk s) {p np : Fin slots}
    (running : (s.ptable p).state = .running)
    (embryo : (s.ptable np).state = .embryo) : FamilyOk (s.adopt p np) := by
  have apart : np ≠ p := by
    rintro rfl
    cases embryo.symm.trans running
  have notInit : s.initproc ≠ np := by
    intro same
    have alive := ok.initAlive
    rw [same, embryo] at alive
    exact alive
  have present : s.past.exited (s.past.process p) = false :=
    ok.present (by simp [running]) (by simp [running])
  have state : ProcTable.Keeps Proc.state s.ptable (s.adopt p np).ptable :=
    .update rfl
  have chans : ProcTable.Keeps Proc.chan s.ptable (s.adopt p np).ptable :=
    .update rfl
  have asleep {q : Fin slots} {chan : Channel slots Other}
      (now : (s.adopt p np).ptable.Asleep q chan) : s.ptable.Asleep q chan :=
    ⟨(state q).symm.trans now.1, (chans q).symm.trans now.2⟩
  refine ⟨?_, ?_, ?_, ?_, ?_, ok.past, ?_, ?_, ?_, ?_, ok.once⟩
  · change (Function.update s.ptable np _ s.initproc).parent = none
    rw [Function.update_of_ne notInit]
    exact ok.init
  · change Alive ((s.adopt p np).ptable s.initproc).state
    rw [state]
    exact ok.initAlive
  · intro q r parent
    rw [state]
    change (Function.update s.ptable np _ q).parent = some r at parent
    change Alive _ ∧ q ≠ r ∧
      if s.past.exited (Function.update s.past.creator np _ q) = true then
        r = s.initproc
      else s.past.process r = Function.update s.past.creator np _ q
    by_cases here : q = np
    · subst here
      rw [Function.update_self] at parent
      cases Option.some.inj parent
      rw [Function.update_self, running, present, if_neg (by simp)]
      exact ⟨trivial, apart, rfl⟩
    · rw [Function.update_of_ne here] at parent
      rw [Function.update_of_ne here]
      exact ok.parent parent
  · intro r q sleeping parent zombie
    rw [state] at zombie
    change (Function.update s.ptable np _ q).parent = some r at parent
    by_cases here : q = np
    · subst here
      cases embryo.symm.trans zombie
    · rw [Function.update_of_ne here] at parent
      exact ok.wait (asleep sleeping) parent zombie
  · intro q used
    rw [state] at used
    exact ok.number used
  · intro q r first second same
    rw [state] at first second
    exact ok.distinct first second same
  · intro q used alive
    rw [state] at used alive
    exact ok.present used alive
  · intro q zombie
    rw [state] at zombie
    exact ok.gone zombie
  · intro n member
    obtain ⟨exited, absent⟩ := ok.reaped member
    refine ⟨exited, fun q used => ?_⟩
    rw [state] at used
    exact absent q used

theorem allocate [DecidableEq Other] (ok : FamilyOk s) {p np : Fin slots}
    (unused : (s.ptable np).state = .unused) : FamilyOk (s.allocate p np) := by
  have self : (s.allocate p np).ptable np = embryoEntry s.nextpid (s.ptable np) :=
    Function.update_self _ _ _
  have other {q : Fin slots} (elsewhere : q ≠ np) :
      (s.allocate p np).ptable q = s.ptable q :=
    Function.update_of_ne elsewhere _ _
  have number {q : Fin slots} (elsewhere : q ≠ np) :
      (s.allocate p np).past.process q = s.past.process q :=
    Function.update_of_ne elsewhere _ _
  have newNumber : (s.allocate p np).past.process np = s.past.count :=
    Function.update_self _ _ _
  have parents : ProcTable.Keeps Proc.parent s.ptable (s.allocate p np).ptable :=
    .update rfl
  have notAlive {q : Fin slots} (alive : Alive (s.ptable q).state) : q ≠ np := by
    rintro rfl
    exact alive.used unused
  have fresh : s.past.exited s.past.count = false := by
    by_contra exited
    exact absurd (ok.past (by simpa using exited)) (Nat.lt_irrefl _)
  have usedBefore {q : Fin slots} (elsewhere : q ≠ np)
      (used : ((s.allocate p np).ptable q).state ≠ .unused) :
      (s.ptable q).state ≠ .unused := by
    rwa [other elsewhere] at used
  have zombieBefore {q : Fin slots}
      (zombie : ((s.allocate p np).ptable q).state = .zombie) :
      q ≠ np ∧ (s.ptable q).state = .zombie := by
    have elsewhere : q ≠ np := by
      rintro rfl
      rw [self] at zombie
      cases zombie
    rw [other elsewhere] at zombie
    exact ⟨elsewhere, zombie⟩
  refine ⟨?_, ?_, ?_, ?_, ?_, ?_, ?_, ?_, ?_, ?_, ok.once⟩
  · exact (parents s.initproc).trans ok.init
  · change Alive ((s.allocate p np).ptable s.initproc).state
    rw [other (notAlive ok.initAlive)]
    exact ok.initAlive
  · intro q r parent
    rw [parents] at parent
    obtain ⟨alive, apart, right⟩ := ok.parent parent
    refine ⟨?_, apart, ?_⟩
    · rwa [other (notAlive alive)]
    · change if s.past.exited (s.past.creator q) = true then r = s.initproc
        else (s.allocate p np).past.process r = s.past.creator q
      rw [number (notAlive alive)]
      exact right
  · intro r q asleep parent zombie
    rw [parents] at parent
    have awake : r ≠ np := notAlive (ok.parent parent).1
    refine ok.wait (p := r) ?_ parent (zombieBefore zombie).2
    unfold ProcTable.Asleep at asleep ⊢
    rwa [other awake] at asleep
  · intro q used
    change (s.allocate p np).past.process q < s.past.count + 1
    by_cases here : q = np
    · rw [here, newNumber]
      exact Nat.lt_succ_self _
    · rw [number here]
      exact Nat.lt_succ_of_lt (ok.number (usedBefore here used))
  · intro n exited
    exact Nat.lt_succ_of_lt (ok.past exited)
  · intro q r first second same
    by_cases here : q = np
    · by_cases there : r = np
      · exact here.trans there.symm
      · rw [here, newNumber, number there] at same
        have below := ok.number (usedBefore there second)
        rw [← same] at below
        exact absurd below (Nat.lt_irrefl _)
    · by_cases there : r = np
      · rw [there, newNumber, number here] at same
        have below := ok.number (usedBefore here first)
        rw [same] at below
        exact absurd below (Nat.lt_irrefl _)
      · rw [number here, number there] at same
        exact ok.distinct (usedBefore here first) (usedBefore there second) same
  · intro q used alive
    change s.past.exited ((s.allocate p np).past.process q) = false
    by_cases here : q = np
    · rw [here, newNumber]
      exact fresh
    · rw [number here]
      rw [other here] at alive
      exact ok.present (usedBefore here used) alive
  · intro q zombie
    obtain ⟨here, before⟩ := zombieBefore zombie
    change s.past.exited ((s.allocate p np).past.process q) = true
    rw [number here]
    exact ok.gone before
  · intro n member
    obtain ⟨exited, absent⟩ := ok.reaped member
    refine ⟨exited, fun q used => ?_⟩
    by_cases here : q = np
    · rw [here, newNumber]
      exact (ok.past exited).ne'
    · rw [number here]
      exact absent q (usedBefore here used)

theorem reap [DecidableEq Other] (ok : FamilyOk s) {q : Fin slots} (g : Nat)
    (zombie : (s.ptable q).state = .zombie) : FamilyOk (s.reap q g) := by
  have self : (s.reap q g).ptable q = reapEntry (s.ptable q) :=
    Function.update_self _ _ _
  have other {r : Fin slots} (elsewhere : r ≠ q) :
      (s.reap q g).ptable r = s.ptable r :=
    Function.update_of_ne elsewhere _ _
  have notAlive {r : Fin slots} (alive : Alive (s.ptable r).state) : r ≠ q := by
    rintro rfl
    exact alive.not_zombie zombie
  have usedBefore {r : Fin slots} (used : ((s.reap q g).ptable r).state ≠ .unused) :
      r ≠ q ∧ (s.ptable r).state ≠ .unused := by
    have elsewhere : r ≠ q := by
      rintro rfl
      rw [self] at used
      exact used rfl
    rw [other elsewhere] at used
    exact ⟨elsewhere, used⟩
  have parentBefore {r p : Fin slots}
      (parent : ((s.reap q g).ptable r).parent = some p) :
      r ≠ q ∧ (s.ptable r).parent = some p := by
    have elsewhere : r ≠ q := by
      rintro rfl
      rw [self] at parent
      cases parent
    rw [other elsewhere] at parent
    exact ⟨elsewhere, parent⟩
  have zombieUsed : (s.ptable q).state ≠ .unused := by simp [zombie]
  refine ⟨?_, ?_, ?_, ?_, ?_, ok.past, ?_, ?_, ?_, ?_, ?_⟩
  · change ((s.reap q g).ptable s.initproc).parent = none
    rw [other (notAlive ok.initAlive)]
    exact ok.init
  · change Alive ((s.reap q g).ptable s.initproc).state
    rw [other (notAlive ok.initAlive)]
    exact ok.initAlive
  · intro r p parent
    obtain ⟨alive, apart, right⟩ := ok.parent (parentBefore parent).2
    rw [other (notAlive alive)]
    exact ⟨alive, apart, right⟩
  · intro p r asleep parent
    obtain ⟨elsewhere, before⟩ := parentBefore parent
    rw [other elsewhere]
    refine ok.wait (p := p) ?_ before
    unfold ProcTable.Asleep at asleep ⊢
    rwa [other (notAlive (ok.parent before).1)] at asleep
  · intro r used
    exact ok.number (usedBefore used).2
  · intro r r' first second same
    exact ok.distinct (usedBefore first).2 (usedBefore second).2 same
  · intro r used alive
    obtain ⟨elsewhere, before⟩ := usedBefore used
    rw [other elsewhere] at alive
    exact ok.present before alive
  · intro r isZombie
    have elsewhere : r ≠ q := by
      rintro rfl
      rw [self] at isZombie
      cases isZombie
    rw [other elsewhere] at isZombie
    exact ok.gone isZombie
  · intro n member
    rcases List.mem_cons.mp member with rfl | before
    · refine ⟨ok.gone zombie, fun r used same => ?_⟩
      obtain ⟨elsewhere, used⟩ := usedBefore used
      exact elsewhere (ok.distinct used zombieUsed same)
    · obtain ⟨exited, absent⟩ := ok.reaped before
      exact ⟨exited, fun r used => absent r (usedBefore used).2⟩
  · refine List.nodup_cons.mpr ⟨fun member => ?_, ok.once⟩
    exact (ok.reaped member).2 q zombieUsed rfl

theorem exit [DecidableEq Other] (ok : FamilyOk s) {p : Fin slots}
    (running : (s.ptable p).state = .running) (other : p ≠ s.initproc) :
    FamilyOk (s.exitScan p) := by
  have used : (s.ptable p).state ≠ .unused := by simp [running]
  have dead : ((s.exitScan p).ptable p).state = .zombie :=
    ProcTable.state_setState_self _ _ _
  have moves {q : Fin slots} (elsewhere : q ≠ p) :
      Moves (s.ptable q).state ((s.exitScan p).ptable q).state :=
    moves_exitTable elsewhere
  have parents (q : Fin slots) : ((s.exitScan p).ptable q).parent =
      if (s.ptable q).parent = some p then some s.initproc
      else (s.ptable q).parent :=
    parent_exitTable other q
  have exited {n : Nat} (before : n ≠ s.past.process p) :
      (s.exitScan p).past.exited n = s.past.exited n :=
    Function.update_of_ne before _ _
  have nowExited : (s.exitScan p).past.exited (s.past.process p) = true :=
    Function.update_self _ _ _
  have stays {n : Nat} (before : s.past.exited n = true) :
      (s.exitScan p).past.exited n = true := by
    by_cases here : n = s.past.process p
    · rw [here]
      exact nowExited
    · rwa [exited here]
  have usedBefore {q : Fin slots}
      (now : ((s.exitScan p).ptable q).state ≠ .unused) :
      (s.ptable q).state ≠ .unused := by
    by_cases here : q = p
    · rwa [here]
    · exact (moves here).used now
  have aliveNow {q : Fin slots} (alive : Alive (s.ptable q).state)
      (elsewhere : q ≠ p) : Alive ((s.exitScan p).ptable q).state :=
    (moves elsewhere).alive alive
  refine ⟨?_, ?_, ?_, ?_, ?_, ?_, ?_, ?_, ?_, ?_, ok.once⟩
  · change ((s.exitScan p).ptable s.initproc).parent = none
    rw [parents, if_neg (by simp [ok.init])]
    exact ok.init
  · exact aliveNow ok.initAlive other.symm
  · intro q r parent
    rw [parents] at parent
    by_cases child : (s.ptable q).parent = some p
    · rw [if_pos child] at parent
      cases Option.some.inj parent
      refine ⟨aliveNow ok.initAlive other.symm, ?_, ?_⟩
      · rintro rfl
        rw [ok.init] at child
        cases child
      · have right := (ok.parent child).2.2
        unfold System.RightParent at right ⊢
        refine (if_pos ?_).mpr rfl
        split at right
        · exact absurd right other
        · change (s.exitScan p).past.exited (s.past.creator q) = true
          rw [← right]
          exact nowExited
    · rw [if_neg child] at parent
      obtain ⟨alive, apart, right⟩ := ok.parent parent
      have elsewhere : r ≠ p := by
        rintro rfl
        exact child parent
      refine ⟨aliveNow alive elsewhere, apart, ?_⟩
      unfold System.RightParent at right ⊢
      split at right
      · rename_i gone
        exact (if_pos (stays gone)).mpr right
      · rename_i here
        have before : s.past.creator q ≠ s.past.process p := by
          intro same
          exact elsewhere (ok.distinct alive.used used (right.trans same))
        refine (if_neg ?_).mpr right
        change ¬ (s.exitScan p).past.exited (s.past.creator q) = true
        rwa [exited before]
  · intro r q asleep parent
    refine wait_exitTable other ?_ ok.wait asleep parent
    intro self
    exact (ok.parent self).2.1 rfl
  · intro q now
    exact ok.number (usedBefore now)
  · intro n gone
    by_cases here : n = s.past.process p
    · rw [here]
      exact ok.number used
    · rw [exited here] at gone
      exact ok.past gone
  · intro q r first second same
    exact ok.distinct (usedBefore first) (usedBefore second) same
  · intro q now alive
    have elsewhere : q ≠ p := by
      rintro rfl
      exact alive dead
    have before : s.past.process q ≠ s.past.process p := fun same =>
      elsewhere (ok.distinct (usedBefore now) used same)
    change (s.exitScan p).past.exited (s.past.process q) = false
    rw [exited before]
    refine ok.present (usedBefore now) fun zombie => ?_
    exact alive ((moves elsewhere).zombie_iff.mpr zombie)
  · intro q zombie
    by_cases here : q = p
    · rw [here]
      exact nowExited
    · exact stays (ok.gone ((moves here).zombie_iff.mp zombie))
  · intro n member
    obtain ⟨gone, absent⟩ := ok.reaped member
    exact ⟨stays gone, fun q now => absent q (usedBefore now)⟩

end FamilyOk

section

variable [DecidableEq Other] {s next : System slots cpus Other}
  {label : Label cpus Other}

theorem step_familyOk (ok : StacksOk s ∧ FamilyOk s)
    (stepped : s.step label = some next) : StacksOk next ∧ FamilyOk next := by
  obtain ⟨stacksOk, ok⟩ := ok
  refine ⟨step_stacksOk stacksOk stepped, ?_⟩
  cases step_familyStep stacksOk stepped with
  | kept kept => exact ok.kept kept
  | exits p running other agrees => exact .congr agrees (ok.exit running other)
  | reaps c frame p q f g rest byRun proc stack code child zombie agrees =>
      exact .congr agrees (ok.reap g zombie)
  | allocates p np unused agrees => exact .congr agrees (ok.allocate unused)
  | adopts p np running embryo agrees => exact .congr agrees (ok.adopt running embryo)

omit [DecidableEq Other] in
theorem boot_familyOk (boot : s.Boot) : FamilyOk s := by
  obtain ⟨f, init, -⟩ := boot.init
  have orphan (p : Fin slots) : (s.ptable p).parent = none := by
    by_cases here : p = s.initproc
    · rw [here, init]
    · rw [boot.others p here]
  have onlyInit {p : Fin slots} (used : (s.ptable p).state ≠ .unused) :
      p = s.initproc := by
    by_contra here
    rw [boot.others p here] at used
    exact used rfl
  have noZombie {p : Fin slots} : (s.ptable p).state ≠ .zombie := by
    by_cases here : p = s.initproc
    · rw [here, init]
      simp
    · rw [boot.others p here]
      simp
  refine ⟨orphan _, ?_, ?_, ?_, ?_, ?_, ?_, ?_, ?_, ?_, ?_⟩
  · rw [init]
    exact trivial
  · intro q r parent
    cases (orphan q).symm.trans parent
  · intro p q _ parent
    cases (orphan q).symm.trans parent
  · intro q used
    rw [onlyInit used, boot.process, boot.count]
    exact Nat.zero_lt_one
  · intro n exited
    cases (boot.exited n).symm.trans exited
  · intro q r first second _
    exact (onlyInit first).trans (onlyInit second).symm
  · intro q _ _
    exact boot.exited _
  · intro q zombie
    exact absurd zombie noZombie
  · intro n member
    rw [boot.events] at member
    cases member
  · rw [boot.events]
    exact List.nodup_nil

/-- In this step CPU `c` executes the loop of `wait` for the current parent of
process `q` and returns the pid of `q`. -/
def ReapedByParent (s next : System slots cpus Other) (label : Label cpus Other)
    (q : Fin slots) : Prop :=
  ∃ c frame p f rest, label = .run c frame ∧ (s.cpu c).proc = some p ∧
    (s.cpu c).stack = some f ∧ s.thread f = .waitScan p :: rest ∧
    (s.ptable q).parent = some p ∧ s.RightParent q p ∧
    (next.ptable q).state = .unused ∧
    next.past.events = .reaped (s.past.process q) (s.ptable q).pid :: s.past.events

/-- A `ZOMBIE` is freed by its current parent only, the pid of a process is
returned once, and nobody sleeps in `wait` while a child has exited. -/
structure System.ExitWaitOk (s : System slots cpus Other) : Prop where
  reaper : ∀ label next q, s.step label = some next →
    (s.ptable q).state = .zombie → (next.ptable q).state ≠ .zombie →
    ReapedByParent s next label q
  once : (reapedNumbers s.past.events).Nodup
  noLostExit : s.lock = none → ∀ p q, s.ptable.Asleep p (.proc p) →
    (s.ptable q).parent = some p → (s.ptable q).state ≠ .zombie

/-- A step from `ZOMBIE` is a step of `wait`. -/
theorem reapedByParent_of_step {q : Fin slots} (stacksOk : StacksOk s)
    (ok : FamilyOk s) (stepped : s.step label = some next)
    (zombie : (s.ptable q).state = .zombie)
    (changed : (next.ptable q).state ≠ .zombie) : ReapedByParent s next label q := by
  cases step_familyStep stacksOk stepped with
  | kept kept => exact absurd ((kept.state q).zombie_iff.mpr zombie) changed
  | exits p running other agrees =>
      have elsewhere : q ≠ p := by
        rintro rfl
        cases running.symm.trans zombie
      have moves : Moves (s.ptable q).state ((s.exitScan p).ptable q).state :=
        moves_exitTable elsewhere
      rw [agrees.ptable] at changed
      exact absurd (moves.zombie_iff.mpr zombie) changed
  | reaps c frame p r f g rest byRun proc stack code child isZombie agrees =>
      have here : q = r := by
        by_contra elsewhere
        rw [agrees.ptable] at changed
        change (Function.update s.ptable r _ q).state ≠ .zombie at changed
        rw [Function.update_of_ne elsewhere] at changed
        exact changed zombie
      subst here
      refine ⟨c, frame, p, f, rest, byRun, proc, stack, code, child,
        (ok.parent child).2.2, ?_, ?_⟩
      · rw [agrees.ptable]
        change (Function.update s.ptable q _ q).state = .unused
        rw [Function.update_self]
        rfl
      · rw [agrees.past]
        rfl
  | allocates p np unused agrees =>
      have elsewhere : q ≠ np := by
        rintro rfl
        cases unused.symm.trans zombie
      rw [agrees.ptable] at changed
      change (Function.update s.ptable np _ q).state ≠ .zombie at changed
      rw [Function.update_of_ne elsewhere] at changed
      exact absurd zombie changed
  | adopts p np running embryo agrees =>
      have elsewhere : q ≠ np := by
        rintro rfl
        cases embryo.symm.trans zombie
      rw [agrees.ptable] at changed
      change (Function.update s.ptable np _ q).state ≠ .zombie at changed
      rw [Function.update_of_ne elsewhere] at changed
      exact absurd zombie changed

/-- `exit` and `wait` keep their protocol in every run of the kernel. -/
theorem exitWaitOk_of_run {s last : System slots cpus Other}
    {labels : List (Label cpus Other)} (boot : s.Boot)
    (ran : run System.step s labels = some last) : last.ExitWaitOk := by
  obtain ⟨stacksOk, ok⟩ : StacksOk last ∧ FamilyOk last :=
    invariant_of_run (fun ok stepped => step_familyOk ok stepped)
      ⟨boot_stacksOk boot, boot_familyOk boot⟩ ran
  refine ⟨fun label next q stepped zombie changed => ?_, ok.once,
    fun _ p q asleep parent => ok.wait asleep parent⟩
  exact reapedByParent_of_step stacksOk ok stepped zombie changed

end

local instance forkWaitExit_neZero : NeZero 2 := ⟨by decide⟩

/-- Init forks and sleeps in `wait`, its child exits, and `wait` returns. -/
def forkWaitExit : List (Label 2 Unit) :=
  forkOnTwoCpus ++ Label.call 0 .wait :: List.replicate 7 (Label.run 0 none) ++
    Label.call 1 .exit :: List.replicate 6 (Label.run 1 none) ++ List.replicate 5 (Label.run 0 none)

theorem forkWaitExit_exitWaitOk :
    ∃ last, run System.step (System.booted 2 2 Unit) forkWaitExit = some last ∧
      last.past.events = [.reaped 1 2, .started false false] ∧
      (last.ptable 1).state = .unused ∧ last.ExitWaitOk := by
  have reached : ((run System.step (System.booted 2 2 Unit) forkWaitExit).map
      fun s => (s.past.events, (s.ptable 1).state)) =
      some ([.reaped 1 2, .started false false], .unused) := by
    decide +kernel
  obtain ⟨last, ran, fields⟩ := Option.map_eq_some_iff.mp reached
  obtain ⟨events, unused⟩ := Prod.mk.inj fields
  exact ⟨last, ran, events, unused,
    exitWaitOk_of_run (System.booted_boot 2 2) ran⟩

end Xv6.Procs
