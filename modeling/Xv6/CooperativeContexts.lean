import Xv6.CooperativeSwitch

/-!
# The contexts of suspended threads

Every thread that does not run is either free or has a frame on its own stack
that its next switch pops.  The frames are disjoint from everything that the
other threads and the library write, so they stay intact through any sequence
of calls, and a switch brings back exactly what the thread left there.
-/

namespace Xv6.Cooperative

open ByteFields

namespace ThreadRun

variable (layout : Layout)

/-- The frame that a thread is resumed from is on its stack. -/
def Resumable (s : ThreadRun) (t : ThreadIndex) : Context → Prop
  | .created func => s.onMain t = false ∧
      loadAt s.machine.mem (layout.entry t) =
        BitVec.ofNat 32 (layout.entry t + 8176) ∧
      loadAt s.machine.mem (layout.entry t + 8192) = func
  | .suspended m => s.low layout t + 16 ≤ m.esp.toNat ∧
      m.esp.toNat + 4 ≤ s.top layout t ∧
      loadAt s.machine.mem (layout.entry t) = m.pushCalleeSaved.esp ∧
      ∀ k, m.esp.toNat - 16 ≤ k → k < s.top layout t →
        getByte s.machine.mem k = getByte m.pushCalleeSaved.mem k

/-- A thread that does not run is free, or `RUNNABLE` with a frame. -/
def SlotOk (s : ThreadRun) (t : ThreadIndex) : Prop :=
  (layout.state s.machine.mem t = free ∧ s.context t = none) ∨
    (layout.state s.machine.mem t = runnable ∧
      ∃ context, s.context t = some context ∧ s.Resumable layout t context)

/-- Thread `c` runs. -/
structure RunningOk (s : ThreadRun) (c : ThreadIndex) : Prop where
  current : s.IsCurrent layout c
  state : layout.state s.machine.mem c = if s.exiting then free else running
  context : s.context c = none
  others : ∀ t, t ≠ c → s.SlotOk layout t

/-- The invariant of all runs.  Only the first thread of slot 0 is on the
stack of the process. -/
structure Ok (s : ThreadRun) : Prop where
  main : ∀ t, s.onMain t = true → t = 0
  runs : ∃ c, s.RunningOk layout c

/-- The fields and the stack of a thread. -/
def OwnedBy (s : ThreadRun) (t : ThreadIndex) (k : Nat) : Prop :=
  (layout.entry t ≤ k ∧ k < layout.entry t + 4) ∨
    (layout.entry t + stateOffset ≤ k ∧ k < layout.entry t + threadSize) ∨
    (s.low layout t ≤ k ∧ k < s.top layout t)

variable {layout}

variable (layout) in
theorem low_top_cases {s : ThreadRun} (main : ∀ t, s.onMain t = true → t = 0)
    (t : ThreadIndex) :
    (t = 0 ∧ s.onMain t = true ∧ s.low layout t = layout.mainLow ∧
        s.top layout t = layout.mainTop) ∨
      (s.onMain t = false ∧ s.low layout t = layout.entry t + 4 ∧
        s.top layout t = layout.entry t + 8196) := by
  unfold low top
  cases onMain : s.onMain t with
  | true => exact .inl ⟨main t onMain, rfl, if_pos rfl, if_pos rfl⟩
  | false =>
      rw [if_neg Bool.false_ne_true, if_neg Bool.false_ne_true, Nat.add_assoc]
      exact .inr ⟨rfl, rfl, rfl⟩

section Places

variable {s : ThreadRun} (main : ∀ t, s.onMain t = true → t = 0)

variable (layout) in
theorem slot_current (t : ThreadIndex) :
    layout.current + 4 ≤ layout.entry t ∨
      layout.entry t + threadSize ≤ layout.current := by
  have table := layout.entry_fits t
  have above := layout.allThread_le_entry t
  have outside := layout.current_table
  omega

variable (layout) in
theorem slot_next (t : ThreadIndex) :
    layout.next + 4 ≤ layout.entry t ∨
      layout.entry t + threadSize ≤ layout.next := by
  have table := layout.entry_fits t
  have above := layout.allThread_le_entry t
  have outside := layout.next_table
  omega

include main

variable (layout) in
theorem stack_current (c : ThreadIndex) :
    layout.current + 4 ≤ s.low layout c ∨ s.top layout c ≤ layout.current := by
  have slot := slot_current layout c
  obtain ⟨_, _, lowEq, topEq⟩ | ⟨_, lowEq, topEq⟩ :=
    low_top_cases layout main c
  · rw [lowEq, topEq]
    exact layout.current_main
  · simp only [threadSize] at slot
    omega

variable (layout) in
theorem stack_next (c : ThreadIndex) :
    layout.next + 4 ≤ s.low layout c ∨ s.top layout c ≤ layout.next := by
  have slot := slot_next layout c
  obtain ⟨_, _, lowEq, topEq⟩ | ⟨_, lowEq, topEq⟩ :=
    low_top_cases layout main c
  · rw [lowEq, topEq]
    exact layout.next_main
  · simp only [threadSize] at slot
    omega

variable (layout) in
/-- A stack that is not in slot `t` has no byte of it, and the one in slot `t`
has only those between the fields `sp` and `state`. -/
theorem stack_slot (c t : ThreadIndex) :
    s.top layout c ≤ layout.entry t ∨
      layout.entry t + threadSize ≤ s.low layout c ∨
      (c = t ∧ s.low layout c = layout.entry t + 4 ∧
        s.top layout c = layout.entry t + 8196) := by
  have table := layout.entry_fits t
  have above := layout.allThread_le_entry t
  obtain ⟨_, _, lowEq, topEq⟩ | ⟨_, lowEq, topEq⟩ :=
    low_top_cases layout main c
  · have mainTable := layout.main_table
    omega
  · by_cases same : c = t
    · subst same
      exact .inr (.inr ⟨rfl, lowEq, topEq⟩)
    · have apart := layout.entries_apart same
      simp only [threadSize] at *
      omega

variable (layout) in
theorem stack_stack {c t : ThreadIndex} (other : t ≠ c) :
    s.top layout t ≤ s.low layout c ∨ s.top layout c ≤ s.low layout t := by
  obtain ⟨tZero, _, lowT, topT⟩ | ⟨_, lowT, topT⟩ :=
    low_top_cases layout main t
  · obtain ⟨cZero, _⟩ | ⟨_, lowC, topC⟩ := low_top_cases layout main c
    · exact absurd (tZero.trans cZero.symm) other
    · obtain before | after | ⟨same, _⟩ := stack_slot layout main t c
      · omega
      · simp only [threadSize] at after
        omega
      · exact absurd same other
  · obtain before | after | ⟨same, _⟩ := stack_slot layout main c t
    · omega
    · simp only [threadSize] at after
      omega
    · exact absurd same.symm other

/-- No byte of a thread is in one of the variables. -/
theorem OwnedBy.not_variable {t : ThreadIndex} {k : Nat}
    (owned : s.OwnedBy layout t k) :
    (k < layout.current ∨ layout.current + 4 ≤ k) ∧
      (k < layout.next ∨ layout.next + 4 ≤ k) := by
  simp only [OwnedBy, stateOffset, threadSize] at owned
  constructor
  · have slot := slot_current layout t
    have stack := stack_current layout main t
    simp only [threadSize] at slot
    omega
  · have slot := slot_next layout t
    have stack := stack_next layout main t
    simp only [threadSize] at slot
    omega

/-- No byte of a thread is in the slot of another one. -/
theorem OwnedBy.not_slot {t u : ThreadIndex} {k : Nat}
    (owned : s.OwnedBy layout u k) (other : u ≠ t) :
    k < layout.entry t ∨ layout.entry t + threadSize ≤ k := by
  have apart := layout.entries_apart other
  simp only [OwnedBy, stateOffset, threadSize] at *
  rcases owned with field | field | ⟨low, high⟩
  · omega
  · omega
  · obtain before | after | ⟨same, _⟩ := stack_slot layout main u t
    · omega
    · simp only [threadSize] at after
      omega
    · exact absurd same other

/-- No byte of a thread is on the stack of another one. -/
theorem OwnedBy.not_stack {t u : ThreadIndex} {k : Nat}
    (owned : s.OwnedBy layout u k) (other : u ≠ t) :
    k < s.low layout t ∨ s.top layout t ≤ k := by
  have slot := stack_slot layout main t u
  have stack := stack_stack layout main other
  simp only [OwnedBy, stateOffset, threadSize] at *
  have notSame : t ≠ u := Ne.symm other
  rcases owned with field | field | ⟨low, high⟩
  · omega
  · omega
  · omega

omit main

theorem OwnedBy.managed (main : ∀ t, s.onMain t = true → t = 0)
    {t : ThreadIndex} {k : Nat} (owned : s.OwnedBy layout t k) :
    Managed layout k := by
  have table := layout.entry_fits t
  have above := layout.allThread_le_entry t
  simp only [OwnedBy, stateOffset, threadSize, maxThread] at *
  obtain ⟨_, _, lowEq, topEq⟩ | ⟨_, lowEq, topEq⟩ :=
    low_top_cases layout main t
  · rcases owned with field | field | stack
    · exact .inl (by simp only [maxThread, threadSize]; omega)
    · exact .inl (by simp only [maxThread, threadSize]; omega)
    · exact .inr (.inr (.inr (by omega)))
  · exact .inl (by simp only [maxThread, threadSize]; omega)

end Places

/-- A slot stays as it is when its bytes do. -/
theorem SlotOk.congr {s s' : ThreadRun} {t : ThreadIndex}
    (slotOk : s.SlotOk layout t) (onMain : s'.onMain t = s.onMain t)
    (context : s'.context t = s.context t)
    (same : ∀ k, s.OwnedBy layout t k →
      getByte s'.machine.mem k = getByte s.machine.mem k) :
    s'.SlotOk layout t := by
  have stateEq : layout.state s'.machine.mem t = layout.state s.machine.mem t :=
    Layout.state_congr fun k low high => same k (.inr (.inl ⟨low, high⟩))
  have spEq : loadAt s'.machine.mem (layout.entry t) =
      loadAt s.machine.mem (layout.entry t) :=
    loadAt_congr fun k low high => same k (.inl ⟨low, high⟩)
  have lowEq : s'.low layout t = s.low layout t := by simp [low, onMain]
  have topEq : s'.top layout t = s.top layout t := by simp [top, onMain]
  unfold SlotOk
  rw [stateEq, context]
  refine slotOk.imp_right fun ⟨isRunnable, saved, contextEq, frame⟩ =>
    ⟨isRunnable, saved, contextEq, ?_⟩
  cases saved with
  | created func =>
      obtain ⟨notMain, sp, entry⟩ := frame
      refine ⟨onMain.trans notMain, spEq.trans sp, ?_⟩
      rw [← entry]
      refine loadAt_congr fun k low high => same k (.inr (.inr ?_))
      simp only [ThreadRun.low, ThreadRun.top, notMain, stackOffset, stackSize,
        Bool.false_eq_true, if_false]
      omega
  | suspended m =>
      obtain ⟨room, inside, sp, frame⟩ := frame
      refine ⟨by rwa [lowEq], by rwa [topEq], spEq.trans sp, fun k low high => ?_⟩
      rw [topEq] at high
      rw [same k (.inr (.inr ⟨by omega, high⟩)), frame k low high]

/-! ## Calls that do not switch -/

/-- The threads other than the running one keep their bytes. -/
theorem RunningOk.congr {s s' : ThreadRun} {c : ThreadIndex}
    (runningOk : s.RunningOk layout c) (onMain : s'.onMain = s.onMain)
    (context : s'.context = s.context)
    (current : ∀ k, layout.current ≤ k → k < layout.current + 4 →
      getByte s'.machine.mem k = getByte s.machine.mem k)
    (state : layout.state s'.machine.mem c =
      if s'.exiting then free else running)
    (others : ∀ t k, t ≠ c → s.OwnedBy layout t k →
      getByte s'.machine.mem k = getByte s.machine.mem k) :
    s'.RunningOk layout c where
  current := (loadAt_congr current).trans runningOk.current
  state := state
  context := by rw [context, runningOk.context]
  others t other := (runningOk.others t other).congr (by rw [onMain])
    (by rw [context]) fun k => others t k other

/-- The running thread's own code keeps the invariant. -/
theorem Ok.compute {s : ThreadRun} (ok : s.Ok layout) {c : ThreadIndex}
    {after : Machine} (current : s.IsCurrent layout c)
    (own : s.OwnCode layout c after) :
    Ok layout { s with machine := after } := by
  obtain ⟨d, runningOk⟩ := ok.runs
  have same : d = c :=
    Layout.pointer_inj (runningOk.current.symm.trans current)
  subst same
  refine ⟨ok.main, d, runningOk.congr rfl rfl ?_ ?_ ?_⟩
  · intro k low high
    have stack := stack_current layout ok.main d
    exact own k (.inr (.inl ⟨low, high⟩)) (by omega)
  · show layout.state after.mem d = _
    rw [← runningOk.state]
    refine Layout.state_congr fun k low high => ?_
    have owned : s.OwnedBy layout d k := .inr (.inl ⟨low, high⟩)
    have slot := stack_slot layout ok.main d d
    simp only [stateOffset, threadSize] at low high slot
    exact own k (owned.managed ok.main) (by omega)
  · intro t k other owned
    exact own k (owned.managed ok.main) (owned.not_stack ok.main other)

/-- `thread_exit` frees the slot of the running thread. -/
theorem Ok.exit {s : ThreadRun} (ok : s.Ok layout) :
    Ok layout { s with
      machine := { s.machine with mem := layout.threadExit s.machine.mem }
      exiting := true } := by
  obtain ⟨c, runningOk⟩ := ok.runs
  have fits := layout.entry_lt c
  have stored : layout.threadExit s.machine.mem =
      storeAt s.machine.mem (layout.entry c + stateOffset) free := by
    unfold Layout.threadExit
    rw [show loadAt s.machine.mem layout.current = _ from runningOk.current]
    show storeAt _ (layout.pointer c + 8196).toNat _ = _
    rw [Layout.pointer_state]
  simp only [threadSize] at fits
  have stateFits : layout.entry c + stateOffset + 4 ≤ 2 ^ 32 := by
    simp only [stateOffset]
    omega
  rw [stored]
  refine ⟨ok.main, c, runningOk.congr rfl rfl ?_ (loadAt_storeAt _ _ stateFits) ?_⟩
  · intro k low high
    have slot := slot_current layout c
    refine getByte_storeAt _ _ stateFits ?_
    simp only [stateOffset, threadSize] at *
    omega
  · intro t k other owned
    have outside := owned.not_slot ok.main other
    refine getByte_storeAt _ _ stateFits ?_
    simp only [stateOffset, threadSize] at *
    omega

/-- `thread_create` fills a free slot, which is not that of the running
thread. -/
theorem Ok.create {s : ThreadRun} (ok : s.Ok layout) {func : Word}
    {t : ThreadIndex} (calls : s.exiting = false)
    (found : layout.findFree s.machine.mem = some t) :
    Ok layout { s with
      machine := { s.machine with
        mem := layout.threadCreate func s.machine.mem }
      onMain := Function.update s.onMain t false
      context := Function.update s.context t (some (.created func)) } := by
  obtain ⟨c, runningOk⟩ := ok.runs
  have isFree : layout.state s.machine.mem t = free := by
    simpa using List.find?_some found
  have other : t ≠ c := by
    rintro rfl
    have state := runningOk.state
    rw [isFree, calls] at state
    simp [free, running] at state
  rw [Layout.threadCreate_of_found func found]
  obtain ⟨sp, entry, state, frame⟩ :=
    layout.fillSlot_spec func t s.machine.mem
  refine ⟨fun u onMain => ?_, c, ?_, ?_, ?_, fun u notCurrent => ?_⟩
  · by_cases same : u = t
    · subst same
      simp at onMain
    · exact ok.main u (by simpa [same] using onMain)
  · refine (loadAt_congr fun k low high => ?_).trans runningOk.current
    have slot := slot_current layout t
    exact frame k (by omega)
  · show layout.state (layout.fillSlot func t s.machine.mem) c = _
    rw [show ({ s with .. } : ThreadRun).exiting = s.exiting from rfl,
      ← runningOk.state]
    refine Layout.state_congr fun k low high => frame k ?_
    have owned : s.OwnedBy layout c k := .inr (.inl ⟨low, high⟩)
    exact owned.not_slot ok.main (Ne.symm other)
  · simp [Ne.symm other, runningOk.context]
  · by_cases same : u = t
    · subst same
      exact .inr ⟨state, .created func, by simp, by simp, sp, entry⟩
    · exact (runningOk.others u notCurrent).congr (by simp [same])
        (by simp [same]) fun k owned => frame k (owned.not_slot ok.main same)

/-! ## Switching -/

/-- Thread `t`, found by the scan of thread `c`, is about to be resumed. -/
structure Switching (layout : Layout) (s : ThreadRun) (c t : ThreadIndex) :
    Prop where
  current : s.IsCurrent layout c
  within : s.WithinStack layout c
  found : layout.foundNext s.machine.mem = some t

theorem Switching.state {s : ThreadRun} {c t : ThreadIndex}
    (switching : Switching layout s c t) :
    layout.state s.machine.mem t = runnable ∧ t ≠ c := by
  have chosen := List.find?_some switching.found
  simp only [decide_eq_true_eq] at chosen
  refine ⟨chosen.1, ?_⟩
  rintro rfl
  exact chosen.2 switching.current.symm

theorem Switching.pushesApart {s : ThreadRun} {c t : ThreadIndex}
    (switching : Switching layout s c t)
    (main : ∀ t, s.onMain t = true → t = 0) :
    layout.PushesApart s.machine.esp := by
  obtain ⟨room, inside⟩ := switching.within
  have onCurrent := stack_current layout main c
  have onNext := stack_next layout main c
  refine ⟨by omega, by omega, by omega, fun u => ?_⟩
  have slot := stack_slot layout main c u
  simp only [threadSize] at slot
  omega

/-- What the switch does to memory, and the stack pointer that it loads. -/
structure Switched (layout : Layout) (s : ThreadRun) (c t : ThreadIndex) :
    Prop where
  sp : (layout.switched (s.atCall layout t)).esp =
    loadAt s.machine.mem (layout.entry t)
  current : loadAt (layout.switched (s.atCall layout t)).mem layout.current =
    layout.pointer t
  saved : loadAt (layout.switched (s.atCall layout t)).mem (layout.entry c) =
    (s.atCall layout t).pushCalleeSaved.esp
  stateNext : layout.state (layout.switched (s.atCall layout t)).mem t = running
  stateCaller : layout.state (layout.switched (s.atCall layout t)).mem c =
    if layout.state s.machine.mem c = running then runnable
    else layout.state s.machine.mem c
  stack : ∀ k, s.low layout c ≤ k → k < s.top layout c →
    getByte (layout.switched (s.atCall layout t)).mem k =
      getByte (s.atCall layout t).pushCalleeSaved.mem k
  frame : ∀ u k, u ≠ c → s.OwnedBy layout u k →
    (k < layout.entry t + stateOffset ∨ layout.entry t + threadSize ≤ k) →
    getByte (layout.switched (s.atCall layout t)).mem k =
      getByte s.machine.mem k

theorem Switching.switched {s : ThreadRun} {c t : ThreadIndex}
    (switching : Switching layout s c t)
    (main : ∀ t, s.onMain t = true → t = 0) : Switched layout s c t := by
  obtain ⟨_, other⟩ := switching.state
  have apart := switching.pushesApart main
  obtain ⟨room, inside⟩ := switching.within
  obtain ⟨next, stateT, stateC, frame⟩ :=
    Layout.handOver_spec switching.current other
  have current : loadAt (s.atCall layout t).mem layout.current =
      layout.pointer c := by
    refine (loadAt_congr fun k low high => ?_).trans switching.current
    have globals := layout.variables_apart
    have slotT := slot_current layout t
    have slotC := slot_current layout c
    simp only [threadSize, stateOffset] at *
    exact frame k (by omega) (by omega) (by omega)
  obtain ⟨sp, current', saved, after⟩ :=
    Layout.switched_spec current next other apart
  -- A byte that neither the stores of `thread_switch` nor its pushes touch.
  have kept (k : Nat) (notEntry : k < layout.entry c ∨ layout.entry c + 4 ≤ k)
      (notCurrent : k < layout.current ∨ layout.current + 4 ≤ k)
      (notStack : k < s.low layout c ∨ s.top layout c ≤ k) :
      getByte (layout.switched (s.atCall layout t)).mem k =
        getByte (layout.handOver t s.machine.mem) k := by
    rw [after k notEntry notCurrent]
    refine Machine.pushCalleeSaved_mem_of_outside apart.room ?_
    show k < s.machine.esp.toNat - 16 ∨ s.machine.esp.toNat ≤ k
    omega
  have keptState (u : ThreadIndex) :
      layout.state (layout.switched (s.atCall layout t)).mem u =
        layout.state (layout.handOver t s.machine.mem) u := by
    refine Layout.state_congr fun k low high => ?_
    have owned : s.OwnedBy layout u k := .inr (.inl ⟨low, high⟩)
    by_cases same : u = c
    · subst same
      have slot := stack_slot layout main u u
      simp only [threadSize, stateOffset] at low high slot
      exact kept k (by omega) (owned.not_variable main).1 (by omega)
    · have outside := owned.not_slot main same
      simp only [threadSize] at outside
      exact kept k (by omega) (owned.not_variable main).1
        (owned.not_stack main same)
  refine ⟨?_, current', saved, (keptState t).trans stateT,
    (keptState c).trans stateC, ?_, ?_⟩
  · refine sp.trans (loadAt_congr fun k low high => ?_)
    have owned : s.OwnedBy layout t k := .inl ⟨low, high⟩
    have outside := owned.not_slot main other
    simp only [threadSize, stateOffset] at *
    exact frame k (owned.not_variable main).2 (by omega) (by omega)
  · intro k low high
    have owned : s.OwnedBy layout c k := .inr (.inr ⟨low, high⟩)
    have slot := stack_slot layout main c c
    simp only [threadSize] at slot
    exact after k (by omega) (owned.not_variable main).1
  · intro u k notCaller owned notState
    have outside := owned.not_slot main notCaller
    have notVariable := owned.not_variable main
    simp only [threadSize, stateOffset] at *
    rw [kept k (by omega) notVariable.1 (owned.not_stack main notCaller)]
    exact frame k notVariable.2 notState (by omega)

/-- A switch keeps the invariant. -/
theorem Ok.switch {s : ThreadRun} (ok : s.Ok layout) {c t : ThreadIndex}
    (switching : Switching layout s c t) : Ok layout (s.switchTo layout c t) := by
  obtain ⟨d, runningOk⟩ := ok.runs
  have same : d = c :=
    Layout.pointer_inj (runningOk.current.symm.trans switching.current)
  subst same
  obtain ⟨_, other⟩ := switching.state
  have switched := switching.switched ok.main
  refine ⟨ok.main, t, switched.current, switched.stateNext, ?_, fun u notNext => ?_⟩
  · simp [switchTo]
  · by_cases caller : u = d
    · subst caller
      have contextEq : (s.switchTo layout u t).context u =
          if s.exiting then none
          else some (.suspended (s.atCall layout t)) := by
        simp [switchTo, notNext]
      have stateEq : layout.state (s.switchTo layout u t).machine.mem u = _ :=
        switched.stateCaller
      rw [runningOk.state] at stateEq
      unfold SlotOk
      rw [contextEq, stateEq]
      cases exiting : s.exiting with
      | true => exact .inl ⟨by simp [free, running], rfl⟩
      | false =>
          refine .inr ⟨by simp, _, rfl, switching.within.1, switching.within.2,
            switched.saved, fun k low high => ?_⟩
          have room := switching.within.1
          have espEq : (s.atCall layout t).esp = s.machine.esp := rfl
          rw [espEq] at low
          exact switched.stack k (by omega) high
    · refine (runningOk.others u caller).congr rfl (by simp [switchTo, notNext, caller])
        fun k owned => switched.frame u k caller owned ?_
      have outside := owned.not_slot ok.main notNext
      simp only [threadSize, stateOffset] at *
      omega

/-! ## Runs -/

variable (layout) in
/-- After `thread_init` thread 0 runs and every other slot is free. -/
theorem threadInit_spec (mem : UserMemory) :
    loadAt (layout.threadInit mem) layout.current = layout.pointer 0 ∧
      layout.state (layout.threadInit mem) 0 = running ∧
      ∀ t, t ≠ 0 → layout.state (layout.threadInit mem) t = free := by
  have fits := layout.current_fits
  have bound (t : ThreadIndex) : layout.entry t + stateOffset + 4 ≤ 2 ^ 32 := by
    have fitsT := layout.entry_lt t
    simp only [threadSize, stateOffset] at *
    omega
  have apart {t u : ThreadIndex} (other : u ≠ t) :
      layout.entry u + stateOffset + 4 ≤ layout.entry t + stateOffset ∨
        layout.entry t + stateOffset + 4 ≤ layout.entry u + stateOffset := by
    have entries := layout.entries_apart other
    simp only [threadSize] at entries
    omega
  have current (t : ThreadIndex) :
      layout.current + 4 ≤ layout.entry t + stateOffset ∨
        layout.entry t + stateOffset + 4 ≤ layout.current := by
    have slot := slot_current layout t
    simp only [threadSize, stateOffset] at *
    omega
  let mem1 := storeAt mem layout.current (layout.pointer 0)
  have current1 : loadAt mem1 layout.current = layout.pointer 0 :=
    loadAt_storeAt _ _ fits
  let mem2 := storeAt mem1 (layout.entry 0 + stateOffset) running
  have second : store mem1 (loadAt mem1 layout.current + 8196) running = mem2 := by
    show storeAt mem1 (loadAt mem1 layout.current + 8196).toNat running = mem2
    rw [current1, Layout.pointer_state]
  have stored : layout.threadInit mem = storeAt (storeAt (storeAt mem2
      (layout.entry 1 + stateOffset) free) (layout.entry 2 + stateOffset) free)
      (layout.entry 3 + stateOffset) free := by
    simp only [Layout.threadInit, List.foldl_cons, List.foldl_nil]
    rw [show store (storeAt mem _ _) _ running = mem2 from second]
  rw [stored]
  refine ⟨?_, ?_, fun t other => ?_⟩
  · rw [loadAt_storeAt_of_apart _ _ (bound 3) (current 3),
      loadAt_storeAt_of_apart _ _ (bound 2) (current 2),
      loadAt_storeAt_of_apart _ _ (bound 1) (current 1),
      loadAt_storeAt_of_apart _ _ (bound 0) (current 0), current1]
  · unfold Layout.state
    rw [loadAt_storeAt_of_apart _ _ (bound 3) (apart (by decide)),
      loadAt_storeAt_of_apart _ _ (bound 2) (apart (by decide)),
      loadAt_storeAt_of_apart _ _ (bound 1) (apart (by decide)),
      loadAt_storeAt _ _ (bound 0)]
  · unfold Layout.state
    obtain rfl | rfl | rfl : t = 1 ∨ t = 2 ∨ t = 3 := by
      revert other
      revert t
      decide
    · rw [loadAt_storeAt_of_apart _ _ (bound 3) (apart (by decide)),
        loadAt_storeAt_of_apart _ _ (bound 2) (apart (by decide)),
        loadAt_storeAt _ _ (bound 1)]
    · rw [loadAt_storeAt_of_apart _ _ (bound 3) (apart (by decide)),
        loadAt_storeAt _ _ (bound 2)]
    · exact loadAt_storeAt _ _ (bound 3)

theorem begin_ok (machine : Machine) : (begin layout machine).Ok layout := by
  obtain ⟨current, first, others⟩ :=
    threadInit_spec layout machine.mem
  refine ⟨fun t onMain => by simpa [begin] using onMain, 0, current, first, rfl,
    fun t other => .inl ⟨others t other, rfl⟩⟩

theorem step_ok {s next : ThreadRun} (ok : s.Ok layout)
    (stepped : Step layout s next) : next.Ok layout := by
  cases stepped with
  | compute _ current own => exact ok.compute current own
  | createFull _ _ found =>
      have same (func : Word) :
          layout.threadCreate func s.machine.mem = s.machine.mem := by
        unfold Layout.threadCreate
        rw [found]
      rw [same]
      exact ok
  | create _ calls found => exact ok.create calls found
  | exit => exact ok.exit
  | switch _ current within found => exact ok.switch ⟨current, within, found⟩
  | stay => exact ok
  | stop => exact ⟨ok.main, ok.runs.imp fun c runningOk => ⟨runningOk.current,
      runningOk.state, runningOk.context, fun t other =>
        (runningOk.others t other).congr rfl rfl fun _ _ => rfl⟩⟩

theorem reachable_ok {s : ThreadRun} (reachable : Reachable layout s) :
    s.Ok layout := by
  obtain ⟨machine, run⟩ := reachable
  induction run with
  | refl => exact begin_ok machine
  | tail _ stepped ih => exact step_ok ih stepped

/-- `after` is the state in which the call of `thread_switch` made in `m` has
returned. -/
structure Returned (m after : Machine) : Prop where
  eip : after.eip = m.topOfStack
  esp : after.esp = m.esp + 4
  ebx : after.ebx = m.ebx
  esi : after.esi = m.esi
  edi : after.edi = m.edi
  ebp : after.ebp = m.ebp

/-- A switch to a created thread enters its function with an empty stack. -/
theorem switchTo_created {s : ThreadRun} {c t : ThreadIndex} {func : Word}
    (ok : s.Ok layout) (switching : Switching layout s c t)
    (frame : s.Resumable layout t (.created func)) :
    (s.switchTo layout c t).machine.eip = func ∧
      (s.switchTo layout c t).machine.esp.toNat =
        layout.entry t + stackOffset + stackSize := by
  obtain ⟨_, other⟩ := switching.state
  have switched := switching.switched ok.main
  obtain ⟨notMain, sp, entry⟩ := frame
  have bound := layout.entry_lt t
  simp only [threadSize] at bound
  have espEq : (layout.switched (s.atCall layout t)).esp =
      BitVec.ofNat 32 (layout.entry t + 8176) := switched.sp.trans sp
  have espNat : (layout.switched (s.atCall layout t)).esp.toNat =
      layout.entry t + 8176 := by
    rw [espEq, BitVec.toNat_ofNat]
    omega
  have eipNat : ((layout.switched (s.atCall layout t)).esp + 4 + 4 + 4 +
      4).toNat = layout.entry t + 8192 := by
    bv_omega
  constructor
  · show loadAt (layout.switched (s.atCall layout t)).mem
      ((layout.switched (s.atCall layout t)).esp + 4 + 4 + 4 + 4).toNat = func
    rw [eipNat, ← entry]
    refine loadAt_congr fun k low high => ?_
    refine switched.frame t k other (.inr (.inr ?_)) ?_
    · simp only [ThreadRun.low, ThreadRun.top, notMain, stackOffset, stackSize,
        Bool.false_eq_true, if_false]
      omega
    · simp only [stateOffset]
      omega
  · show ((layout.switched (s.atCall layout t)).esp + 4 + 4 + 4 + 4 + 4).toNat = _
    simp only [stackOffset, stackSize]
    bv_omega

/-- A switch to a suspended thread returns from the call that it made. -/
theorem switchTo_suspended {s : ThreadRun} {c t : ThreadIndex} {m : Machine}
    (ok : s.Ok layout) (switching : Switching layout s c t)
    (frame : s.Resumable layout t (.suspended m)) :
    Returned m (s.switchTo layout c t).machine := by
  obtain ⟨_, other⟩ := switching.state
  have switched := switching.switched ok.main
  obtain ⟨room, inside, sp, stack⟩ := frame
  have topFits : s.top layout t ≤ 2 ^ 32 := by
    have bound := layout.entry_lt t
    have mainFits := layout.main_fits
    simp only [threadSize] at bound
    obtain ⟨_, _, _, topEq⟩ | ⟨_, _, topEq⟩ :=
      low_top_cases layout ok.main t
    · omega
    · omega
  have spEq : (layout.switched (s.atCall layout t)).esp =
      m.pushCalleeSaved.esp := switched.sp.trans sp
  have spNat : m.pushCalleeSaved.esp.toNat = m.esp.toNat - 16 :=
    Machine.pushCalleeSaved_esp_toNat (by omega)
  have word {address : Word} (low : m.esp.toNat - 16 ≤ address.toNat)
      (high : address.toNat + 4 ≤ s.top layout t) :
      load (layout.switched (s.atCall layout t)).mem address =
        load m.pushCalleeSaved.mem address := by
    refine load_congr fun k kLow kHigh => ?_
    have owned : s.OwnedBy layout t k := .inr (.inr ⟨by omega, by omega⟩)
    have slot := stack_slot layout ok.main t t
    simp only [threadSize] at slot
    rw [switched.frame t k other owned (by
      simp only [stateOffset, threadSize]
      omega)]
    exact stack k (by omega) (by omega)
  have saved := Machine.pushCalleeSaved_savedAt (m := m) (by omega)
  have esp1 := toNat_add_four m.pushCalleeSaved.esp (by omega)
  have esp2 := toNat_add_four (m.pushCalleeSaved.esp + 4) (by omega)
  have esp3 := toNat_add_four (m.pushCalleeSaved.esp + 4 + 4) (by omega)
  have esp4 := toNat_add_four (m.pushCalleeSaved.esp + 4 + 4 + 4) (by omega)
  let resumed := layout.switched (s.atCall layout t)
  change Returned m resumed.popCalleeSavedRet
  have resumedSp : resumed.esp = m.pushCalleeSaved.esp := spEq
  constructor
  · change load resumed.mem (resumed.esp + 4 + 4 + 4 + 4) = _
    rw [resumedSp, word (by omega) (by omega), saved.eip]
  · change resumed.esp + 4 + 4 + 4 + 4 + 4 = _
    rw [resumedSp, Machine.pushCalleeSaved_esp_add]
  · change load resumed.mem (resumed.esp + 4 + 4) = _
    rw [resumedSp, word (by omega) (by omega), saved.ebx]
  · change load resumed.mem (resumed.esp + 4) = _
    rw [resumedSp, word (by omega) (by omega), saved.esi]
  · change load resumed.mem resumed.esp = _
    rw [resumedSp, word (by omega) (by omega), saved.edi]
  · change load resumed.mem (resumed.esp + 4 + 4 + 4) = _
    rw [resumedSp, word (by omega) (by omega), saved.ebp]

/-- What cooperative switching owes to every thread.  Each switch resumes a
known context: the first one enters the function that the thread was created
for, at the end of its stack array, and every later one returns from the
thread's last call of `thread_switch`.  The frames of suspended threads are
as the pushes of that call left them, and `thread_create` without a free slot
stores nothing. -/
structure Exact (layout : Layout) (s : ThreadRun) : Prop where
  switches : ∀ {c t}, Switching layout s c t →
    (∃ func, s.context t = some (.created func) ∧
      (s.switchTo layout c t).machine.eip = func ∧
      (s.switchTo layout c t).machine.esp.toNat =
        layout.entry t + stackOffset + stackSize) ∨
    ∃ m, s.context t = some (.suspended m) ∧
      Returned m (s.switchTo layout c t).machine
  intact : ∀ {t m}, s.context t = some (.suspended m) →
    loadAt s.machine.mem (layout.entry t) = m.pushCalleeSaved.esp ∧
      ∀ k, m.pushCalleeSaved.esp.toNat ≤ k → k < s.top layout t →
        getByte s.machine.mem k = getByte m.pushCalleeSaved.mem k
  full : (∀ t, layout.state s.machine.mem t ≠ free) →
    ∀ func, layout.threadCreate func s.machine.mem = s.machine.mem

/-- Cooperative switching is exact in every state that calls of
`thread_create`, `thread_schedule` and `thread_exit` can reach. -/
theorem exact_of_reachable {s : ThreadRun} (reachable : Reachable layout s) :
    Exact layout s := by
  have ok := reachable_ok reachable
  obtain ⟨d, runningOk⟩ := ok.runs
  constructor
  case switches =>
    intro c t switching
    obtain ⟨isRunnable, other⟩ := switching.state
    have same : d = c :=
      Layout.pointer_inj (runningOk.current.symm.trans switching.current)
    subst same
    obtain ⟨isFree, _⟩ | ⟨_, context, contextEq, frame⟩ :=
      runningOk.others t other
    · rw [isRunnable] at isFree
      simp [free, runnable] at isFree
    · cases context with
      | created func =>
          exact .inl ⟨func, contextEq, switchTo_created ok switching frame⟩
      | suspended m =>
          exact .inr ⟨m, contextEq, switchTo_suspended ok switching frame⟩
  case intact =>
    intro t m contextEq
    have other : t ≠ d := by
      rintro rfl
      rw [runningOk.context] at contextEq
      cases contextEq
    obtain ⟨_, none⟩ | ⟨_, context, contextEq', frame⟩ :=
      runningOk.others t other
    · rw [none] at contextEq
      cases contextEq
    · rw [contextEq] at contextEq'
      cases contextEq'
      obtain ⟨room, _, sp, stack⟩ := frame
      rw [Machine.pushCalleeSaved_esp_toNat (by omega)]
      exact ⟨sp, stack⟩
  case full => exact fun full func => Layout.threadCreate_full func full

/-- A process image: the variables on one page, the table behind them and the
stack of the process above. -/
def sampleLayout : Layout where
  allThread := 0x2000
  current := 0x1000
  next := 0x1004
  mainLow := 0xb000
  mainTop := 0xc000
  allThread_pos := by decide
  allThread_fits := by decide
  current_fits := by decide
  next_fits := by decide
  main_fits := by decide
  variables_apart := by decide
  current_table := by decide
  next_table := by decide
  current_main := by decide
  next_main := by decide
  main_table := by decide

/-- `main`, some way down its stack. -/
def mainMachine : Machine where
  eax := 0
  ecx := 0
  edx := 0
  ebx := 0
  esp := 0xbf00
  ebp := 0
  esi := 0
  edi := 0
  eip := 0
  eflags := 0
  mem := fun _ => 0

local instance oneCreated_neZero : NeZero 4 := ⟨by decide⟩

/-- `main` has created a thread for the function at address 64. -/
def oneCreated : ThreadRun :=
  { begin sampleLayout mainMachine with
    machine := { (begin sampleLayout mainMachine).machine with
      mem := sampleLayout.threadCreate 64
        (begin sampleLayout mainMachine).machine.mem }
    onMain := Function.update (begin sampleLayout mainMachine).onMain 1 false
    context := Function.update (begin sampleLayout mainMachine).context 1
      (some (.created 64)) }

theorem begin_findFree :
    sampleLayout.findFree (begin sampleLayout mainMachine).machine.mem =
      some 1 := by
  obtain ⟨_, first, others⟩ :=
    threadInit_spec sampleLayout mainMachine.mem
  unfold Layout.findFree
  rw [show List.finRange maxThread = [0, 1, 2, 3] from rfl,
    List.find?_cons_of_neg (by
      show ¬ decide (sampleLayout.state (sampleLayout.threadInit _) 0 = _) = true
      rw [first]
      decide),
    List.find?_cons_of_pos (by
      show decide (sampleLayout.state (sampleLayout.threadInit _) 1 = _) = true
      rw [others 1 (by decide)]
      decide)]

theorem oneCreated_reachable : Reachable sampleLayout oneCreated :=
  ⟨mainMachine, .single (.create rfl rfl begin_findFree)⟩

theorem oneCreated_switching : Switching sampleLayout oneCreated 0 1 := by
  obtain ⟨current, first, others⟩ :=
    threadInit_spec sampleLayout mainMachine.mem
  have memEq : oneCreated.machine.mem = sampleLayout.fillSlot 64 1
      (sampleLayout.threadInit mainMachine.mem) := by
    have created := Layout.threadCreate_of_found 64 begin_findFree
    simp only [begin] at created
    simp only [oneCreated, begin, created]
  obtain ⟨_, _, filled, frame⟩ := sampleLayout.fillSlot_spec
    64 1 (sampleLayout.threadInit mainMachine.mem)
  have isCurrent : loadAt oneCreated.machine.mem sampleLayout.current =
      sampleLayout.pointer 0 := by
    rw [memEq, ← current]
    have slot := slot_current sampleLayout 1
    exact loadAt_congr fun k low high => frame k (by omega)
  have notRunnable : sampleLayout.state oneCreated.machine.mem 0 = running := by
    rw [memEq, ← first]
    have slot := sampleLayout.entries_apart
      (show (0 : ThreadIndex) ≠ 1 by decide)
    refine Layout.state_congr fun k low high => frame k ?_
    simp only [stateOffset, threadSize] at *
    omega
  refine ⟨isCurrent, ?_, ?_⟩
  · show 0xb000 + 16 ≤ 0xbf00 ∧ 0xbf00 + 4 ≤ 0xc000
    decide
  · unfold Layout.foundNext
    rw [show List.finRange maxThread = [0, 1, 2, 3] from rfl,
      List.find?_cons_of_neg (by rw [notRunnable]; decide),
      List.find?_cons_of_pos]
    rw [isCurrent, memEq, filled]
    refine decide_eq_true ⟨rfl, fun same => ?_⟩
    exact absurd (Layout.pointer_inj same) (by decide)

theorem oneCreated_exact :
    Exact sampleLayout oneCreated ∧ Switching sampleLayout oneCreated 0 1 :=
  ⟨exact_of_reachable oneCreated_reachable, oneCreated_switching⟩

end ThreadRun

end Xv6.Cooperative
