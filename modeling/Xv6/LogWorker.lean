import Xv6.LogInvariant

/-!
# Steps of `commit` and `recover_from_log`

The process inside `commit` or `recover_from_log` finds no operation
outstanding.  Each of its steps keeps the invariant; the disk writes are the
staging of a log block, the commit, the installation of a home block and the
erasure.
-/

namespace Xv6

open ByteFields RedoLog

/-- The invariant while a worker runs. -/
structure WorkerOk (g : LogGeometry) (home0 : Disk) (s : LogSystem)
    (w : LogWorker) : Prop where
  committing : w.recovering = false → s.committing = true
  outstanding : s.outstanding = 0
  inOp : s.inOp = []
  appending : s.appending = []
  unlogged : s.unlogged = []
  io : IoOk s.io w.pc.Unwritten
    (if w.recovering then [] else s.lh.drop w.pc.installed)
  updates : ∀ u ∈ s.history.current, u.blockno ∈ s.lh
  content : ∀ i, (s.io.buf i).dirty = true →
    (s.io.buf i).data = s.history.newHome home0 (s.io.buf i).blockno
  pc : PcOk g home0 s.io s.lh s.history w

variable {g : LogGeometry} {home0 : Disk} {s s' : LogSystem} {w : LogWorker}

theorem WorkerOk.loose (working : s.worker = some w) (unlogged : s.unlogged = []) :
    s.Loose = w.pc.Unwritten := by
  funext i
  simp [LogSystem.Loose, working, unlogged]

theorem Live.workerOk (live : Live g home0 s) (working : s.worker = some w) :
    WorkerOk g home0 s w := by
  obtain ⟨core, phase⟩ := live
  simp only [PhaseOk, working] at phase
  obtain ⟨committing, inOp, pc⟩ := phase
  have noOp (pid : Pid) : ¬ s.InOp pid := by
    simp [LogSystem.InOp, inOp]
  have appending : s.appending = [] :=
    List.eq_nil_iff_forall_not_mem.mpr fun entry mem =>
      noOp _ (core.appending entry mem).1
  have unlogged : s.unlogged = [] := by
    refine List.eq_nil_iff_forall_not_mem.mpr fun i mem => ?_
    obtain ⟨pid, writes⟩ := core.unlogged i mem
    exact noOp pid writes.1
  have io := core.io
  rw [WorkerOk.loose working unlogged] at io
  simp only [LogSystem.pinned, working] at io
  exact
    { committing, inOp, appending, unlogged, io, pc
      outstanding := by simpa [inOp] using core.outstanding
      updates := core.updates
      content := fun i dirty => core.content i dirty (by simp [unlogged]) }

theorem WorkerOk.live (ok : WorkerOk g home0 s w) (working : s.worker = some w) :
    Live g home0 s := by
  refine ⟨?_, ?_⟩
  · refine
      { io := ?_
        outstanding := by simp [ok.outstanding, ok.inOp]
        nodup := by simp [ok.inOp]
        group := by simp [ok.inOp]
        updates := ok.updates
        appending := by simp [ok.appending]
        unlogged := by simp [ok.unlogged]
        content := fun i dirty _ => ok.content i dirty }
    rw [WorkerOk.loose working ok.unlogged]
    simp only [LogSystem.pinned, working]
    exact ok.io
  · simp only [PhaseOk, working]
    exact ⟨ok.committing, ok.inOp, ok.pc⟩

/-! ## Reading a block -/

/-- What a `bread` of one block leaves alone: the disk, the worker's buffers
of other blocks, and the dirty buffers. -/
structure BreadKeeps (pid : Pid) (blockno : Nat) (io io' : IoState) :
    Prop where
  disk : io'.disk = io.disk
  has : ∀ i b, b ≠ blockno → Has io pid i b → Has io' pid i b ∧
    (io'.buf i).data = (io.buf i).data
  dirty : ∀ i, (io'.buf i).dirty = true → (io.buf i).dirty = true ∧
    (io'.buf i).blockno = (io.buf i).blockno ∧
    (io'.buf i).data = (io.buf i).data

theorem Keeps.has {pid : Pid} {io io' : IoState} (keeps : Keeps pid io io')
    {i : Slot} {b : Nat} (has : Has io pid i b) :
    Has io' pid i b ∧ (io'.buf i).data = (io.buf i).data := by
  obtain ⟨_, _, _, valid, data⟩ := keeps.owned i has.owner
  exact ⟨⟨keeps.holds has.toHolds, valid.trans has.valid⟩, data⟩

theorem Keeps.breadKeeps {pid : Pid} {io io' : IoState}
    (keeps : Keeps pid io io') (blockno : Nat) :
    BreadKeeps pid blockno io io' :=
  ⟨keeps.disk, fun _ _ _ has => keeps.has has, keeps.dirty⟩

/-- A step of a `bread` by the worker panics, goes on, or ends with the block
in a valid buffer. -/
theorem breadStep_spec {blockno : Nat} {again : BreadPc → LogPc}
    {done : Slot → LogPc} {bread : BreadPc} {loose : Slot → Prop}
    {pinned : List Nat} (ok : IoOk s.io loose pinned)
    (at' : BreadOk s.io w.pid blockno bread)
    (stepped : s.breadStep w blockno again done bread = some s') :
    (∃ message, s' = s.panic message) ∨
      ∃ io pc, s' = { s with io := io }.goto w pc ∧ IoOk io loose pinned ∧
        BreadKeeps w.pid blockno s.io io ∧
        ((∃ bread', pc = again bread' ∧ BreadOk io w.pid blockno bread') ∨
          ∃ i, pc = done i ∧ Has io w.pid i blockno) := by
  cases bread with
  | get =>
      simp only [LogSystem.breadStep] at stepped
      split at stepped
      · rename_i i io got
        cases stepped
        exact .inr ⟨io, _, rfl, ok.bget got,
          (ok.keeps_of_bget got w.pid).breadKeeps blockno,
          .inl ⟨.lock i, rfl, IoOk.waits_self_of_bget got⟩⟩
      · cases stepped
        exact .inl ⟨_, rfl⟩
  | lock i =>
      simp only [LogSystem.breadStep] at stepped
      split at stepped
      · rename_i io acquired
        cases stepped
        obtain ⟨⟨_, unowned⟩, _, _, disk, same, changed⟩ :=
          IoState.acquire_eq_some acquired
        have keeps : Keeps w.pid s.io io := by
          refine .of_slot disk same (by simp [unowned]) fun dirty => ?_
          rw [changed] at dirty ⊢
          exact ⟨dirty, rfl, rfl⟩
        refine .inr ⟨io, _, rfl, ok.acquire acquired, keeps.breadKeeps blockno,
          .inl ⟨.fill i, rfl, ?_⟩⟩
        refine ⟨?_, ?_, ?_⟩
        · rw [changed]
        · rw [changed]
          exact at'.dev
        · rw [changed]
          exact at'.blockno
      · cases stepped
  | fill i =>
      simp only [LogSystem.breadStep] at stepped
      split at stepped
      · rename_i valid
        cases stepped
        exact .inr ⟨s.io, _, rfl, ok,
          ⟨rfl, fun _ _ _ has => ⟨has, rfl⟩, fun _ dirty => ⟨dirty, rfl, rfl⟩⟩,
          .inr ⟨i, rfl, at', valid⟩⟩
      · rename_i invalid
        split at stepped
        · rename_i io filled
          cases stepped
          have held : (s.io.buf i).owner ≠ none := by
            simp [at'.owner]
          obtain ⟨_, _, disk, same, changed⟩ := IoState.fill_eq_some filled
          refine .inr ⟨io, _, rfl, ok.fill held filled, ⟨disk, ?_, ?_⟩,
            .inr ⟨i, rfl, ⟨?_, ?_, ?_⟩, ?_⟩⟩
          · intro j b other has
            have here : j ≠ i := by
              rintro rfl
              exact other (has.blockno.symm.trans at'.blockno)
            have sameBuf := same j here
            refine ⟨⟨⟨?_, ?_, ?_⟩, ?_⟩, ?_⟩ <;> rw [sameBuf]
            · exact has.owner
            · exact has.dev
            · exact has.blockno
            · exact has.valid
          · intro j dirty
            by_cases here : j = i
            · subst here
              rw [changed] at dirty
              exact absurd ((ok.slot j).dirty_valid dirty) (by simpa using invalid)
            · rw [same j here] at dirty ⊢
              exact ⟨dirty, rfl, rfl⟩
          · rw [changed]
            exact at'.owner
          · rw [changed]
            exact at'.dev
          · rw [changed]
            exact at'.blockno
          · rw [changed]
        · cases stepped
          exact .inl ⟨_, rfl⟩

/-! ## Steps that only read -/

theorem Consistent.panic (ok : Consistent g home0 s) (message : LogPanic) :
    Consistent g home0 (s.panic message) :=
  ⟨ok.disk, ok.history, fun none => by cases none⟩

/-- A worker step that leaves the disk alone. -/
theorem Consistent.goto {io : IoState} {pc : LogPc}
    (ok : Consistent g home0 s) (disk : io.disk = s.io.disk)
    (worker : WorkerOk g home0 ({ s with io := io }.goto w pc)
      { w with pc := pc }) :
    Consistent g home0 ({ s with io := io }.goto w pc) :=
  ⟨by
    change DiskOk g io.disk _
    rw [disk]
    exact ok.disk, ok.history, fun _ => worker.live rfl⟩

/-- A worker step that leaves the disk and the dirty buffers alone and keeps
the counts of installed entries. -/
theorem WorkerOk.goto {io : IoState} {pc : LogPc} (ok : WorkerOk g home0 s w)
    (ioOk : IoOk io pc.Unwritten
      (if w.recovering then [] else s.lh.drop pc.installed))
    (dirty : ∀ i, (io.buf i).dirty = true → (s.io.buf i).dirty = true ∧
      (io.buf i).blockno = (s.io.buf i).blockno ∧
      (io.buf i).data = (s.io.buf i).data)
    (pcOk : PcOk g home0 io s.lh s.history { w with pc := pc }) :
    WorkerOk g home0 ({ s with io := io }.goto w pc) { w with pc := pc } where
  committing := ok.committing
  outstanding := ok.outstanding
  inOp := ok.inOp
  appending := ok.appending
  unlogged := ok.unlogged
  io := ioOk
  updates := ok.updates
  content := fun i isDirty => by
    obtain ⟨was, blockno, data⟩ := dirty i isDirty
    change (io.buf i).data = s.history.newHome home0 (io.buf i).blockno
    rw [blockno, data]
    exact ok.content i was
  pc := pcOk

/-- A step of a `bread` inside the worker keeps the invariant when the
positions before and after it make the same demands. -/
theorem bread_consistent {blockno : Nat} {again : BreadPc → LogPc}
    {done : Slot → LogPc} {bread : BreadPc} (ok : Consistent g home0 s)
    (worker : WorkerOk g home0 s w)
    (at' : BreadOk s.io w.pid blockno bread)
    (tight : ∀ pc, (∃ b, pc = again b) ∨ (∃ i, pc = done i) →
      pc.Unwritten = w.pc.Unwritten ∧ pc.installed = w.pc.installed)
    (onAgain : ∀ io b, BreadKeeps w.pid blockno s.io io →
      BreadOk io w.pid blockno b →
      PcOk g home0 io s.lh s.history { w with pc := again b })
    (onDone : ∀ io i, BreadKeeps w.pid blockno s.io io →
      Has io w.pid i blockno →
      PcOk g home0 io s.lh s.history { w with pc := done i })
    (stepped : s.breadStep w blockno again done bread = some s') :
    Consistent g home0 s' := by
  rcases breadStep_spec worker.io at' stepped with
    ⟨message, rfl⟩ | ⟨io, pc, rfl, ioOk, keeps, next⟩
  · exact ok.panic message
  · have shape : (∃ b, pc = again b) ∨ ∃ i, pc = done i := by
      rcases next with ⟨b, eq, _⟩ | ⟨i, eq, _⟩
      · exact .inl ⟨b, eq⟩
      · exact .inr ⟨i, eq⟩
    obtain ⟨unwritten, installed⟩ := tight pc shape
    refine ok.goto keeps.disk (worker.goto ?_ keeps.dirty ?_)
    · rw [unwritten, installed]
      exact ioOk
    · rcases next with ⟨b, rfl, bOk⟩ | ⟨i, rfl, has⟩
      · exact onAgain io b keeps bOk
      · exact onDone io i keeps has

/-- In the copying loops the log block lies in the log area and the home block
outside it. -/
theorem entry_facts {kind : CopyKind} {tail : Nat}
    (disk : DiskOk g s.io.disk (s.history.home home0))
    (pre : CopyPre g home0 s.io.disk s.lh s.history w.recovering kind tail)
    (inside : tail < s.lh.length) :
    ¬ g.Home (g.logBlock tail) ∧ g.Home (s.lh.getD tail 0) ∧
      s.lh[tail]? = some (s.lh.getD tail 0) := by
  have entry : s.lh[tail]? = some (s.lh.getD tail 0) := by
    simp [List.getD, inside]
  have mem : s.lh.getD tail 0 ∈ s.lh := List.mem_of_getElem? entry
  cases kind with
  | toLog =>
      obtain ⟨_, entries, _, fits, _⟩ := pre
      refine ⟨g.not_home_logBlock ?_, entries.isHome _ mem, entry⟩
      rcases fits with rfl | short
      · decide
      · omega
  | toHome =>
      have short := disk.short
      rw [pre.entries] at short
      refine ⟨g.not_home_logBlock (by omega), disk.isHome _ ?_, entry⟩
      rw [pre.entries]
      exact mem

theorem work_head {kind : HeadKind} {bread : BreadPc}
    (ok : Consistent g home0 s) (worker : WorkerOk g home0 s w)
    (at' : w.pc = .head kind bread) (stepped : s.workStep g w = some s') :
    Consistent g home0 s' := by
  have pc := worker.pc
  simp only [PcOk, at'] at pc
  simp only [LogSystem.workStep, at'] at stepped
  refine bread_consistent ok worker pc.2 ?_ ?_ ?_ stepped
  · rintro pc (⟨b, rfl⟩ | ⟨i, rfl⟩) <;> simp [at', LogPc.installed] <;> rfl
  · intro io b keeps bOk
    simp only [PcOk, keeps.disk]
    exact ⟨pc.1, bOk⟩
  · intro io i keeps has
    simp only [PcOk, keeps.disk]
    exact ⟨pc.1, has⟩

theorem work_copyLog {kind : CopyKind} {tail : Nat} {bread : BreadPc}
    (ok : Consistent g home0 s) (worker : WorkerOk g home0 s w)
    (at' : w.pc = .copyLog kind tail bread)
    (stepped : s.workStep g w = some s') : Consistent g home0 s' := by
  have pc := worker.pc
  simp only [PcOk, at'] at pc
  simp only [LogSystem.workStep, at'] at stepped
  refine bread_consistent ok worker pc.2.2 ?_ ?_ ?_ stepped
  · rintro pc (⟨b, rfl⟩ | ⟨i, rfl⟩) <;> cases kind <;>
      simp [at', LogPc.installed] <;> rfl
  · intro io b keeps bOk
    simp only [PcOk, keeps.disk]
    exact ⟨pc.1, pc.2.1, bOk⟩
  · intro io i keeps has
    simp only [PcOk, keeps.disk]
    exact ⟨pc.1, pc.2.1, has, trivial⟩

theorem work_copyHome {kind : CopyKind} {tail : Nat} {lbuf : Slot}
    {bread : BreadPc} (ok : Consistent g home0 s)
    (worker : WorkerOk g home0 s w)
    (at' : w.pc = .copyHome kind tail lbuf bread)
    (stepped : s.workStep g w = some s') : Consistent g home0 s' := by
  have pc := worker.pc
  simp only [PcOk, at'] at pc
  obtain ⟨pre, inside, has, bOk⟩ := pc
  obtain ⟨inLog, isHome, _⟩ := entry_facts ok.disk pre inside
  have apart : g.logBlock tail ≠ s.lh.getD tail 0 := by
    intro eq
    rw [eq] at inLog
    exact inLog isHome
  simp only [LogSystem.workStep, at'] at stepped
  refine bread_consistent ok worker bOk ?_ ?_ ?_ stepped
  · rintro pc (⟨b, rfl⟩ | ⟨i, rfl⟩) <;> cases kind <;>
      simp [at', LogPc.installed] <;> rfl
  · intro io b keeps bOk
    simp only [PcOk, keeps.disk]
    exact ⟨pre, inside, (keeps.has _ _ apart has).1, bOk⟩
  · intro io i keeps hasHome
    simp only [PcOk, keeps.disk]
    exact ⟨pre, inside, (keeps.has _ _ apart has).1, hasHome⟩

/-! ## Steps that change a buffer -/

/-- The worker's buffer of a block outside the home area is clean. -/
theorem WorkerOk.clean_of_not_home {i : Slot} {b : Nat}
    (worker : WorkerOk g home0 s w) (isHome : ∀ b ∈ s.lh, g.Home b)
    (holds : Holds s.io w.pid i b) (inLog : ¬ g.Home b) :
    (s.io.buf i).dirty = false := by
  by_contra dirty
  obtain ⟨_, mem⟩ := (worker.io.slot i).dirty_iff.mp (by simpa using dirty)
  rw [holds.blockno] at mem
  split at mem
  · exact absurd mem List.not_mem_nil
  · exact inLog (isHome b (List.mem_of_mem_drop mem))

/-- `install_trans` and `write_log` go on, or `write_head` follows. -/
theorem WorkerOk.copyTest {kind : CopyKind} {tail : Nat} {io : IoState}
    (worker : WorkerOk g home0 s w)
    (ioOk : IoOk io (fun _ => False)
      (if w.recovering then [] else
        match kind with
        | .toLog => s.lh
        | .toHome => s.lh.drop tail))
    (dirty : ∀ i, (io.buf i).dirty = true → (s.io.buf i).dirty = true ∧
      (io.buf i).blockno = (s.io.buf i).blockno ∧
      (io.buf i).data = (s.io.buf i).data)
    (pre : CopyPre g home0 io.disk s.lh s.history w.recovering kind tail)
    (le : tail ≤ s.lh.length) :
    ∃ pc, ({ s with io := io }.copyTest w kind tail).worker =
        some { w with pc := pc } ∧
      WorkerOk g home0 ({ s with io := io }.copyTest w kind tail)
        { w with pc := pc } := by
  unfold LogSystem.copyTest
  split
  · rename_i inside
    refine ⟨.copyLog kind tail .get, rfl, worker.goto ?_ dirty ?_⟩
    · cases kind with
      | toLog => exact ioOk
      | toHome => exact ioOk
    · exact ⟨pre, inside, trivial⟩
  · rename_i outside
    have done : tail = s.lh.length := by
      change ¬ tail < s.lh.length at outside
      omega
    subst done
    cases kind with
    | toLog =>
        refine ⟨.head .commit .get, rfl, worker.goto ioOk dirty ?_⟩
        refine ⟨⟨pre, ?_⟩, trivial⟩
        obtain ⟨_, _, _, fits, _⟩ := pre
        rcases fits with none | short
        · rw [none]
          exact Nat.zero_lt_succ _
        · exact short
    | toHome =>
        obtain ⟨_, current, entries, installed⟩ := pre
        have none : (if w.recovering then [] else s.lh.drop s.lh.length) =
            ([] : List Nat) := by
          simp
        rw [none] at ioOk
        refine ⟨.head .clear .get, rfl, ?_⟩
        refine
          { committing := worker.committing
            outstanding := worker.outstanding
            inOp := worker.inOp
            appending := worker.appending
            unlogged := worker.unlogged
            io := ?_
            updates := ?_
            content := ?_
            pc := ⟨⟨rfl, fun b mem => ?_⟩, trivial⟩ }
        · simp only [LogSystem.goto, List.drop_nil, ite_self]
          exact ioOk
        · change ∀ u ∈ s.history.current, _
          simp [current]
        · intro i isDirty
          obtain ⟨_, mem⟩ := (ioOk.slot i).dirty_iff.mp isDirty
          exact absurd mem List.not_mem_nil
        · change b ∈ headerEntries (io.disk g.start) at mem
          rw [entries] at mem
          obtain ⟨k, inside, rfl⟩ := List.mem_iff_getElem.mp mem
          exact installed k _ inside (List.getElem?_eq_getElem inside)

theorem work_headData_read {i : Slot} (ok : Consistent g home0 s)
    (worker : WorkerOk g home0 s w) (at' : w.pc = .headData .read i)
    (stepped : s.workStep g w = some s') : Consistent g home0 s' := by
  have pc := worker.pc
  simp only [PcOk, at'] at pc
  obtain ⟨⟨recovering, current⟩, has⟩ := pc
  simp only [LogSystem.workStep, at', Option.some.injEq] at stepped
  subst stepped
  have io := worker.io
  simp only [recovering, if_true, at'] at io
  have clean : (s.io.buf i).dirty = false := by
    by_contra dirty
    obtain ⟨_, mem⟩ := (io.slot i).dirty_iff.mp (by simpa using dirty)
    exact absurd mem List.not_mem_nil
  have read : (s.io.buf i).data = s.io.disk g.start := by
    rw [(io.slot i).clean has.valid clean (by simp [LogPc.Unwritten]),
      has.blockno]
  refine ⟨ok.disk, ok.history, fun _ => WorkerOk.live
    (w := { w with pc := .headRelse .read i }) ?_ rfl⟩
  exact
    { committing := worker.committing
      outstanding := worker.outstanding
      inOp := worker.inOp
      appending := worker.appending
      unlogged := worker.unlogged
      io := by
        simp only [recovering, if_true]
        exact io
      updates := by
        change ∀ u ∈ s.history.current, _
        simp [current]
      content := worker.content
      pc := ⟨⟨fun running => by simp [recovering] at running, current,
        congrArg headerEntries read.symm, fun _ _ none => absurd none
          (Nat.not_lt_zero _)⟩, has⟩ }

theorem Has.setData {io : IoState} {pid : Pid} {j : Slot} {b : Nat}
    (has : Has io pid j b) (i : Slot) (data : Block) :
    Has (io.setData i data) pid j b := by
  obtain ⟨⟨owner, dev, blockno⟩, valid⟩ := has
  by_cases here : j = i
  · subst here
    exact ⟨⟨by simpa [IoState.setData], by simpa [IoState.setData],
      by simpa [IoState.setData]⟩, by simpa [IoState.setData]⟩
  · exact ⟨⟨by simpa [IoState.setData, here], by simpa [IoState.setData, here],
      by simpa [IoState.setData, here]⟩, by simpa [IoState.setData, here]⟩

/-- The memory write of `write_head`. -/
theorem work_headData_write {kind : HeadKind} {i : Slot}
    (ok : Consistent g home0 s) (worker : WorkerOk g home0 s w)
    (at' : w.pc = .headData kind i) (writes : kind ≠ .read)
    (stepped : s.workStep g w = some s') : Consistent g home0 s' := by
  have pc := worker.pc
  simp only [PcOk, at'] at pc
  obtain ⟨pre, has⟩ := pc
  have facts : s.lh.length < logsize ∧ (∀ b ∈ s.lh, b < fssize) ∧
      ∀ b ∈ s.lh, g.Home b := by
    cases kind with
    | read => exact absurd rfl writes
    | commit => exact ⟨pre.2, pre.1.entries.bounded, pre.1.entries.isHome⟩
    | clear => simp [pre.1]
  have clean := worker.clean_of_not_home facts.2.2 has.toHolds g.not_home_start
  let header := headerBlock (s.io.buf i).data s.lh
  have result : s' = { s with io := s.io.setData i header }.goto w
      (.headWrite kind i) := by
    cases kind with
    | read => exact absurd rfl writes
    | commit =>
        simp only [LogSystem.workStep, at', Option.some.injEq] at stepped
        exact stepped.symm
    | clear =>
        simp only [LogSystem.workStep, at', Option.some.injEq] at stepped
        exact stepped.symm
  subst result
  have held : (s.io.buf i).owner ≠ none := by
    simp [has.owner]
  refine ok.goto rfl (worker.goto ?_ ?_ ?_)
  · have io := worker.io.setData header held
    simp only [at', LogPc.installed] at io
    refine cast (congrArg (IoOk _ · _) ?_) io
    funext j
    simp [LogPc.Unwritten]
  · intro j dirty
    by_cases here : j = i
    · subst here
      simp [IoState.setData, clean] at dirty
    · simpa [IoState.setData, here] using dirty
  · refine ⟨pre, has.setData i header, writes, ?_⟩
    simpa [IoState.setData] using headerEntries_headerBlock facts.1 facts.2.1

/-! ## Disk writes -/

/-- A `bwrite` by the worker: the buffer becomes clean and the disk agrees
with it. -/
theorem WorkerOk.bwrite {io : IoState} {i : Slot} {pc : LogPc} {h : LogHistory}
    (worker : WorkerOk g home0 s w) (owner : (s.io.buf i).owner = some w.pid)
    (wrote : s.io.bwrite i = some io)
    (unwritten : ∀ j, j ≠ i → ¬ w.pc.Unwritten j)
    (tight : ∀ j, ¬ pc.Unwritten j)
    (pinnedIff : w.recovering = false → ∀ b, b ∈ s.lh.drop pc.installed ↔
      b ∈ s.lh.drop w.pc.installed ∧ b ≠ (s.io.buf i).blockno)
    (updates : ∀ u ∈ h.current, u.blockno ∈ s.lh)
    (sameHome : h.newHome home0 = s.history.newHome home0)
    (pcOk : PcOk g home0 io s.lh h { w with pc := pc }) :
    WorkerOk g home0 ({ s with io := io, history := h }.goto w pc)
      { w with pc := pc } := by
  obtain ⟨_, _, _, same, changed⟩ := IoState.bwrite_eq_some wrote
  refine
    { committing := worker.committing
      outstanding := worker.outstanding
      inOp := worker.inOp
      appending := worker.appending
      unlogged := worker.unlogged
      io := ?_
      updates := updates
      content := ?_
      pc := pcOk }
  · refine worker.io.bwrite (by simp [owner]) wrote ?_ (tight i) ?_
    · intro j here
      exact iff_of_false (tight j) (unwritten j here)
    · intro b
      cases recovering : w.recovering with
      | true => simp
      | false => simpa [LogSystem.goto] using pinnedIff recovering b
  · intro j dirty
    have here : j ≠ i := by
      rintro rfl
      change (io.buf j).dirty = true at dirty
      rw [changed] at dirty
      cases dirty
    change (io.buf j).dirty = true at dirty
    change (io.buf j).data = h.newHome home0 (io.buf j).blockno
    rw [same j here] at dirty ⊢
    rw [sameHome]
    exact worker.content j dirty

theorem Has.bwrite {io io' : IoState} {pid : Pid} {i j : Slot} {b : Nat}
    (has : Has io pid j b) (wrote : io.bwrite i = some io') :
    Has io' pid j b := by
  obtain ⟨_, _, _, same, changed⟩ := IoState.bwrite_eq_some wrote
  by_cases here : j = i
  · subst here
    refine ⟨⟨?_, ?_, ?_⟩, ?_⟩ <;> rw [changed]
    · exact has.owner
    · exact has.dev
    · exact has.blockno
  · refine ⟨⟨?_, ?_, ?_⟩, ?_⟩ <;> rw [same j here]
    · exact has.owner
    · exact has.dev
    · exact has.blockno
    · exact has.valid

/-- The commit point. -/
theorem work_headWrite_commit {i : Slot} (ok : Consistent g home0 s)
    (worker : WorkerOk g home0 s w) (at' : w.pc = .headWrite .commit i)
    (stepped : s.workStep g w = some s') : Consistent g home0 s' := by
  have pc := worker.pc
  simp only [PcOk, at'] at pc
  obtain ⟨⟨staged, short⟩, has, _, entries⟩ := pc
  simp only [LogSystem.workStep, at'] at stepped
  split at stepped
  · rename_i io wrote
    cases stepped
    obtain ⟨_, _, disk, _, _⟩ := IoState.bwrite_eq_some wrote
    rw [has.blockno] at disk
    have untouched (b : Nat) (outside : b ∉ s.lh) :
        s.history.newHome home0 b = s.history.home home0 b :=
      LogHistory.newHome_of_not_mem fun u mem eq =>
        outside (eq ▸ worker.updates u mem)
    have stagedAll (k b : Nat) (entry : s.lh[k]? = some b) :
        s.io.disk (g.logBlock k) = s.history.newHome home0 b := by
      obtain ⟨inside, _⟩ := List.getElem?_eq_some_iff.mp entry
      exact staged.staged k b inside entry
    have committed : DiskOk g io.disk (s.history.commit.home home0) := by
      rw [disk, LogHistory.home_commit]
      refine ok.disk.commit staged.erased ?_ ?_ ?_ ?_ <;> rw [entries]
      · exact short
      · exact staged.entries.isHome
      · exact stagedAll
      · exact untouched
    have header : headerEntries (io.disk g.start) = s.lh := by
      rw [disk, Function.update_self, entries]
    refine ⟨committed, ok.history.commit, fun _ => WorkerOk.live
      (w := { w with pc := .headRelse .commit i }) ?_ rfl⟩
    refine worker.bwrite has.owner wrote ?_ (fun _ => id) ?_ ?_ ?_ ?_
    · simp [at', LogPc.Unwritten]
    · intro _ b
      simp only [at', LogPc.installed, List.drop_zero, has.blockno]
      exact ⟨fun mem => ⟨mem, fun eq => g.not_home_start
        (eq ▸ staged.entries.isHome b mem)⟩, And.left⟩
    · exact fun _ none => absurd none List.not_mem_nil
    · rw [LogHistory.newHome_of_current rfl, LogHistory.home_commit]
    · exact ⟨⟨fun _ => staged.entries.nodup, rfl, header,
        fun _ _ none => absurd none (Nat.not_lt_zero _)⟩, has.bwrite wrote⟩
  · cases stepped
    exact ok.panic _

/-- The erasure of the commit record. -/
theorem work_headWrite_clear {i : Slot} (ok : Consistent g home0 s)
    (worker : WorkerOk g home0 s w) (at' : w.pc = .headWrite .clear i)
    (stepped : s.workStep g w = some s') : Consistent g home0 s' := by
  have pc := worker.pc
  simp only [PcOk, at'] at pc
  obtain ⟨⟨empty, installed⟩, has, _, entries⟩ := pc
  simp only [LogSystem.workStep, at'] at stepped
  split at stepped
  · rename_i io wrote
    cases stepped
    obtain ⟨_, _, disk, _, _⟩ := IoState.bwrite_eq_some wrote
    rw [has.blockno] at disk
    have erased : DiskOk g io.disk (s.history.home home0) := by
      rw [disk]
      exact ok.disk.erase (entries.trans empty) installed
    have header : headerEntries (io.disk g.start) = [] := by
      rw [disk, Function.update_self, entries, empty]
    refine ⟨erased, ok.history, fun _ => WorkerOk.live
      (w := { w with pc := .headRelse .clear i }) ?_ rfl⟩
    refine worker.bwrite has.owner wrote ?_ (fun _ => id) ?_ worker.updates rfl
      ⟨⟨empty, header⟩, has.bwrite wrote⟩
    · simp [at', LogPc.Unwritten]
    · simp [empty]
  · cases stepped
    exact ok.panic _

/-- The memory copy of `write_log` and `install_trans`: the copied contents
are the new ones of the home block. -/
theorem work_copyData {kind : CopyKind} {tail : Nat} {lbuf dbuf : Slot}
    (ok : Consistent g home0 s) (worker : WorkerOk g home0 s w)
    (at' : w.pc = .copyData kind tail lbuf dbuf)
    (stepped : s.workStep g w = some s') : Consistent g home0 s' := by
  have pc := worker.pc
  simp only [PcOk, at'] at pc
  obtain ⟨pre, inside, hasLog, hasHome⟩ := pc
  obtain ⟨inLog, isHome, entry⟩ := entry_facts ok.disk pre inside
  simp only [LogSystem.workStep, at', Option.some.injEq] at stepped
  subst stepped
  have lhHome : ∀ b ∈ s.lh, g.Home b := by
    cases kind with
    | toLog => exact pre.entries.isHome
    | toHome =>
        have entries := ok.disk.isHome
        rw [pre.entries] at entries
        exact entries
  have logClean := worker.clean_of_not_home lhHome hasLog.toHolds inLog
  have tightLog : ¬ w.pc.Unwritten lbuf := by
    simp [at', LogPc.Unwritten]
  let target := LogSystem.copyTarget kind lbuf dbuf
  let source := LogSystem.copySource kind lbuf dbuf
  have data : (s.io.buf source).data =
      s.history.newHome home0 (s.lh.getD tail 0) := by
    cases kind with
    | toLog =>
        have dirty : (s.io.buf dbuf).dirty = true := by
          refine (worker.io.slot dbuf).dirty_iff.mpr ⟨hasHome.dev, ?_⟩
          rw [hasHome.blockno, pre.running]
          simpa [at', LogPc.installed] using List.mem_of_getElem? entry
        change (s.io.buf dbuf).data = _
        rw [worker.content dbuf dirty, hasHome.blockno]
    | toHome =>
        change (s.io.buf lbuf).data = _
        rw [(worker.io.slot lbuf).clean hasLog.valid logClean tightLog,
          hasLog.blockno, LogHistory.newHome_of_current pre.current]
        refine ok.disk.recoverable.logged tail _ ?_
        rw [pre.entries]
        exact entry
  have owner : (s.io.buf target).owner = some w.pid := by
    cases kind with
    | toLog => exact hasLog.owner
    | toHome => exact hasHome.owner
  have kept (j : Slot) (b : Nat) (has : Has s.io w.pid j b) :
      Has (s.io.setData target (s.io.buf source).data) w.pid j b :=
    has.setData target _
  refine ⟨ok.disk, ok.history, fun _ => WorkerOk.live
    (w := { w with pc := .copyWrite kind tail lbuf dbuf }) ?_ rfl⟩
  refine
    { committing := worker.committing
      outstanding := worker.outstanding
      inOp := worker.inOp
      appending := worker.appending
      unlogged := worker.unlogged
      io := ?_
      updates := worker.updates
      content := ?_
      pc := ⟨pre, inside, kept _ _ hasLog, kept _ _ hasHome, ?_⟩ }
  · have io := worker.io.setData (i := target) (s.io.buf source).data
      (by simp [owner])
    have installed : (LogPc.copyWrite kind tail lbuf dbuf).installed =
        w.pc.installed := by
      rw [at']
      cases kind <;> rfl
    have loose : (fun j => w.pc.Unwritten j ∨ j = target) =
        (LogPc.copyWrite kind tail lbuf dbuf).Unwritten := by
      funext j
      simp [at', LogPc.Unwritten, target]
    simp only [installed, ← loose]
    exact io
  · intro j dirty
    change ((s.io.setData target (s.io.buf source).data).buf j).dirty = true
      at dirty
    change ((s.io.setData target (s.io.buf source).data).buf j).data =
      s.history.newHome home0
        ((s.io.setData target (s.io.buf source).data).buf j).blockno
    by_cases here : j = target
    · subst here
      simp only [IoState.setData, IoState.modify_buf, if_true] at dirty ⊢
      rw [data]
      cases kind with
      | toLog =>
          change (s.io.buf lbuf).dirty = true at dirty
          rw [logClean] at dirty
          cases dirty
      | toHome =>
          change _ = s.history.newHome home0 (s.io.buf dbuf).blockno
          rw [hasHome.blockno]
    · simp only [IoState.setData, IoState.modify_buf, if_neg here] at dirty ⊢
      exact worker.content j dirty
  · change ((s.io.setData target (s.io.buf source).data).buf target).data =
      s.history.newHome home0 (s.lh.getD tail 0)
    rw [← data]
    simp [IoState.setData]

/-- The pigeonhole behind the capacity test: while the worker holds a log
block, some buffer is not pinned. -/
theorem lh_length_lt {io : IoState} {loose : Slot → Prop} {lh : List Nat}
    {i : Slot} (ok : IoOk io loose lh) (nodup : lh.Nodup)
    (outside : (io.buf i).blockno ∉ lh) : lh.length < nbuf := by
  have covered : lh.toFinset ⊆
      (Finset.univ.erase i).image fun j => (io.buf j).blockno := by
    intro b mem
    obtain ⟨j, _, blockno⟩ := ok.cached b (List.mem_toFinset.mp mem)
    refine Finset.mem_image.mpr ⟨j, Finset.mem_erase.mpr ⟨?_, Finset.mem_univ j⟩,
      blockno⟩
    rintro rfl
    exact outside (blockno ▸ List.mem_toFinset.mp mem)
  calc lh.length = lh.toFinset.card := (List.toFinset_card_of_nodup nodup).symm
    _ ≤ ((Finset.univ.erase i).image fun j => (io.buf j).blockno).card :=
      Finset.card_le_card covered
    _ ≤ (Finset.univ.erase i).card := Finset.card_image_le
    _ < (Finset.univ : Finset Slot).card :=
      Finset.card_erase_lt_of_mem (Finset.mem_univ i)
    _ = nbuf := Finset.card_fin nbuf

/-- Writing a log block in `write_log`. -/
theorem work_copyWrite_toLog {tail : Nat} {lbuf dbuf : Slot}
    (ok : Consistent g home0 s) (worker : WorkerOk g home0 s w)
    (at' : w.pc = .copyWrite .toLog tail lbuf dbuf)
    (stepped : s.workStep g w = some s') : Consistent g home0 s' := by
  have pc := worker.pc
  simp only [PcOk, at'] at pc
  obtain ⟨pre, inside, hasLog, hasHome, data⟩ := pc
  obtain ⟨inLog, _, entry⟩ := entry_facts ok.disk pre inside
  obtain ⟨running, entries, erased, fits, staged⟩ := pre
  have apart : g.logBlock tail ∉ s.lh := fun mem =>
    inLog (entries.isHome _ mem)
  simp only [LogSystem.workStep, at'] at stepped
  split at stepped
  · rename_i io wrote
    cases stepped
    change s.io.bwrite lbuf = some io at wrote
    obtain ⟨_, _, disk, _, _⟩ := IoState.bwrite_eq_some wrote
    rw [hasLog.blockno] at disk
    have short : s.lh.length < logsize := by
      have pinned := worker.io
      simp only [running, at', LogPc.installed, List.drop_zero,
        Bool.false_eq_true, if_false] at pinned
      refine lh_length_lt (i := lbuf) pinned entries.nodup ?_
      rw [hasLog.blockno]
      exact apart
    have stage : DiskOk g io.disk (s.history.home home0) := by
      rw [disk]
      exact ok.disk.stage erased inLog (g.logBlock_ne_start tail)
    refine ⟨stage, ok.history, fun _ => WorkerOk.live
      (w := { w with pc := .copyRelseSource .toLog tail lbuf dbuf }) ?_ rfl⟩
    refine worker.bwrite hasLog.owner wrote ?_ (fun _ => id) ?_ worker.updates
      rfl ?_
    · intro j other
      simpa [at', LogPc.Unwritten, LogSystem.copyTarget] using other
    · intro _ b
      simp only [at', LogPc.installed, List.drop_zero, hasLog.blockno]
      exact ⟨fun mem => ⟨mem, fun eq => apart (eq ▸ mem)⟩, And.left⟩
    · refine ⟨⟨running, entries, ?_, .inr short, ?_⟩, inside,
        hasLog.bwrite wrote, hasHome.bwrite wrote⟩
      · rw [disk, Function.update_of_ne (Ne.symm (g.logBlock_ne_start tail))]
        exact erased
      · intro k b lt kEntry
        rw [disk]
        by_cases here : k = tail
        · subst here
          rw [entry] at kEntry
          cases kEntry
          rw [Function.update_self]
          exact data
        · rw [Function.update_of_ne fun eq => here (g.logBlock_injective eq)]
          exact staged k b (by omega) kEntry
  · cases stepped
    exact ok.panic _

/-- Writing a home block in `install_trans`. -/
theorem work_copyWrite_toHome {tail : Nat} {lbuf dbuf : Slot}
    (ok : Consistent g home0 s) (worker : WorkerOk g home0 s w)
    (at' : w.pc = .copyWrite .toHome tail lbuf dbuf)
    (stepped : s.workStep g w = some s') : Consistent g home0 s' := by
  have pc := worker.pc
  simp only [PcOk, at'] at pc
  obtain ⟨pre, inside, hasLog, hasHome, data⟩ := pc
  obtain ⟨_, isHome, entry⟩ := entry_facts ok.disk pre inside
  obtain ⟨nodup, current, entries, installed⟩ := pre
  rw [LogHistory.newHome_of_current current] at data
  simp only [LogSystem.workStep, at'] at stepped
  split at stepped
  · rename_i io wrote
    cases stepped
    change s.io.bwrite dbuf = some io at wrote
    obtain ⟨_, _, disk, _, _⟩ := IoState.bwrite_eq_some wrote
    rw [hasHome.blockno] at disk
    have install : DiskOk g io.disk (s.history.home home0) := by
      rw [disk]
      refine ok.disk.install ?_
      rw [entries]
      exact List.mem_of_getElem? entry
    have header : io.disk g.start = s.io.disk g.start := by
      rw [disk]
      refine Function.update_of_ne (fun eq => g.not_home_start ?_) _ _
      rw [eq]
      exact isHome
    refine ⟨install, ok.history, fun _ => WorkerOk.live
      (w := { w with pc := .copyRelseSource .toHome tail lbuf dbuf }) ?_ rfl⟩
    refine worker.bwrite hasHome.owner wrote ?_ (fun _ => id) ?_ worker.updates
      rfl ?_
    · intro j other
      simpa [at', LogPc.Unwritten, LogSystem.copyTarget] using other
    · intro running b
      simp only [at', LogPc.installed, hasHome.blockno]
      have split : s.lh.drop tail =
          s.lh.getD tail 0 :: s.lh.drop (tail + 1) := by
        rw [List.drop_eq_getElem_cons inside]
        simp [List.getD, inside]
      have rest := (nodup running).drop (i := tail)
      rw [split] at rest
      rw [split, List.mem_cons]
      refine ⟨fun mem => ⟨.inr mem, ?_⟩, fun ⟨mem, other⟩ =>
        mem.resolve_left other⟩
      rintro rfl
      exact (List.nodup_cons.mp rest).1 mem
    · refine ⟨⟨nodup, current, ?_, ?_⟩, inside, hasLog.bwrite wrote,
        hasHome.bwrite wrote⟩
      · rw [header]
        exact entries
      · intro k b lt kEntry
        rw [disk]
        by_cases here : b = s.lh.getD tail 0
        · subst here
          rw [Function.update_self]
          exact data
        · rw [Function.update_of_ne here]
          refine installed k b ?_ kEntry
          by_contra notLt
          have : k = tail := by omega
          subst this
          rw [entry] at kEntry
          cases kEntry
          exact here rfl
  · cases stepped
    exact ok.panic _

/-! ## Releases -/

theorem brelse_dirty (io : IoState) (pid : Pid) (i j : Slot)
    (dirty : ((io.brelse pid i).buf j).dirty = true) :
    (io.buf j).dirty = true ∧
      ((io.brelse pid i).buf j).blockno = (io.buf j).blockno ∧
      ((io.brelse pid i).buf j).data = (io.buf j).data := by
  obtain ⟨same, changed⟩ := io.brelse_buf pid i
  by_cases here : j = i
  · subst here
    rw [changed] at dirty ⊢
    exact ⟨dirty, rfl, rfl⟩
  · rw [same j here] at dirty ⊢
    exact ⟨dirty, rfl, rfl⟩

/-- A release followed by the test of a copying loop. -/
theorem relse_copyTest {kind : CopyKind} {tail : Nat} {i : Slot}
    (ok : Consistent g home0 s) (worker : WorkerOk g home0 s w)
    (owner : (s.io.buf i).owner = some w.pid)
    (tight : w.pc.Unwritten = fun _ => False)
    (pinned : (if w.recovering then [] else s.lh.drop w.pc.installed) =
      if w.recovering then [] else
        match kind with
        | .toLog => s.lh
        | .toHome => s.lh.drop tail)
    (pre : CopyPre g home0 s.io.disk s.lh s.history w.recovering kind tail)
    (le : tail ≤ s.lh.length) :
    Consistent g home0
      ({ s with io := s.io.brelse w.pid i }.copyTest w kind tail) := by
  have io := worker.io
  rw [tight, pinned] at io
  have released := io.brelse (i := i) id owner
  obtain ⟨pc, working, next⟩ :=
    worker.copyTest released (brelse_dirty s.io w.pid i) pre le
  have unchanged : ({ s with io := s.io.brelse w.pid i }.copyTest w kind tail).io.disk =
      s.io.disk ∧
      ({ s with io := s.io.brelse w.pid i }.copyTest w kind tail).history =
        s.history := by
    unfold LogSystem.copyTest
    split
    · exact ⟨rfl, rfl⟩
    · cases kind <;> exact ⟨rfl, rfl⟩
  refine ⟨?_, ?_, fun _ => next.live working⟩
  · rw [unchanged.1, unchanged.2]
    exact ok.disk
  · rw [unchanged.2]
    exact ok.history

theorem work_headRelse {kind : HeadKind} {i : Slot}
    (ok : Consistent g home0 s) (worker : WorkerOk g home0 s w)
    (at' : w.pc = .headRelse kind i) (stepped : s.workStep g w = some s') :
    Consistent g home0 s' := by
  have pc := worker.pc
  simp only [PcOk, at'] at pc
  obtain ⟨post, has⟩ := pc
  have toCopy (post : Installed g home0 s.io.disk s.lh s.history w.recovering 0) :
      Consistent g home0 ({ s with io := s.io.brelse w.pid i }.copyTest w .toHome 0) := by
    refine relse_copyTest ok worker has.owner ?_ ?_ post (Nat.zero_le _)
    · rw [at']
      rfl
    · rw [at']
      rfl
  cases kind with
  | read =>
      simp only [LogSystem.workStep, at', Option.some.injEq] at stepped
      subst stepped
      exact toCopy post
  | commit =>
      simp only [LogSystem.workStep, at', Option.some.injEq] at stepped
      subst stepped
      exact toCopy post
  | clear =>
      simp only [LogSystem.workStep, at', Option.some.injEq] at stepped
      subst stepped
      refine ok.goto rfl (worker.goto ?_ (brelse_dirty s.io w.pid i) post)
      have io := worker.io
      simp only [at'] at io
      exact io.brelse (i := i) id has.owner

theorem work_copyRelseSource {kind : CopyKind} {tail : Nat} {lbuf dbuf : Slot}
    (ok : Consistent g home0 s) (worker : WorkerOk g home0 s w)
    (at' : w.pc = .copyRelseSource kind tail lbuf dbuf)
    (stepped : s.workStep g w = some s') : Consistent g home0 s' := by
  have pc := worker.pc
  simp only [PcOk, at'] at pc
  obtain ⟨pre, inside, hasLog, hasHome⟩ := pc
  have apart : lbuf ≠ dbuf := by
    rintro rfl
    have same := hasLog.blockno.symm.trans hasHome.blockno
    have entry : s.lh[tail]? = some (s.lh.getD tail 0) := by
      simp [List.getD, inside]
    have mem : s.lh.getD tail 0 ∈ s.lh := List.mem_of_getElem? entry
    rw [← same] at mem
    cases kind with
    | toLog =>
        obtain ⟨_, entries, _, fits, _⟩ := pre
        refine g.not_home_logBlock ?_ (entries.isHome _ mem)
        omega
    | toHome =>
        have short := ok.disk.short
        have isHome := ok.disk.isHome
        rw [pre.entries] at short isHome
        exact g.not_home_logBlock (by omega) (isHome _ mem)
  simp only [LogSystem.workStep, at', Option.some.injEq] at stepped
  subst stepped
  have io := worker.io
  simp only [at'] at io
  have held : (s.io.buf (LogSystem.copySource kind lbuf dbuf)).owner = some w.pid := by
    cases kind with
    | toLog => exact hasHome.owner
    | toHome => exact hasLog.owner
  refine ok.goto rfl (worker.goto ?_ (brelse_dirty s.io w.pid _)
    ⟨pre, inside, ?_⟩)
  · have released := io.brelse (i := LogSystem.copySource kind lbuf dbuf) id held
    cases kind with
    | toLog => exact released
    | toHome => exact released
  · cases kind with
    | toLog =>
        change ((s.io.brelse w.pid dbuf).buf lbuf).owner = some w.pid
        rw [(s.io.brelse_buf w.pid dbuf).1 lbuf apart]
        exact hasLog.owner
    | toHome =>
        change ((s.io.brelse w.pid lbuf).buf dbuf).owner = some w.pid
        rw [(s.io.brelse_buf w.pid lbuf).1 dbuf (Ne.symm apart)]
        exact hasHome.owner

theorem work_copyRelseTarget {kind : CopyKind} {tail : Nat} {lbuf dbuf : Slot}
    (ok : Consistent g home0 s) (worker : WorkerOk g home0 s w)
    (at' : w.pc = .copyRelseTarget kind tail lbuf dbuf)
    (stepped : s.workStep g w = some s') : Consistent g home0 s' := by
  have pc := worker.pc
  simp only [PcOk, at'] at pc
  obtain ⟨pre, inside, owner⟩ := pc
  simp only [LogSystem.workStep, at', Option.some.injEq] at stepped
  subst stepped
  refine relse_copyTest ok worker owner ?_ ?_ pre inside
  · rw [at']
    rfl
  · rw [at']
    cases kind <;> rfl

theorem work_finish (ok : Consistent g home0 s) (worker : WorkerOk g home0 s w)
    (at' : w.pc = .finish) (stepped : s.workStep g w = some s') :
    Consistent g home0 s' := by
  have pc := worker.pc
  simp only [PcOk, at'] at pc
  obtain ⟨empty, erased⟩ := pc
  simp only [LogSystem.workStep, at', Option.some.injEq] at stepped
  subst stepped
  have io := worker.io
  simp only [at', empty, List.drop_nil, ite_self] at io
  have current : s.history.current = [] := by
    refine List.eq_nil_iff_forall_not_mem.mpr fun u mem => ?_
    have := worker.updates u mem
    simp [empty] at this
  let h := if w.recovering then s.history else s.history.commitReturned
  have sameCurrent : h.current = [] := by
    cases recovering : w.recovering <;> simp only [h, recovering] <;> exact current
  have sameHome : h.home home0 = s.history.home home0 := by
    cases recovering : w.recovering <;> simp only [h, recovering] <;> rfl
  have historyOk : h.Ok := by
    cases recovering : w.recovering with
    | true =>
        simp only [h, recovering, if_true]
        exact ok.history
    | false =>
        simp only [h, recovering, Bool.false_eq_true, if_false]
        exact ok.history.commitReturned
  refine ⟨?_, historyOk, fun _ => ⟨?_, ?_⟩⟩
  · change DiskOk g s.io.disk (h.home home0)
    rw [sameHome]
    exact ok.disk
  · refine
      { io := ?_
        outstanding := by simp [worker.outstanding, worker.inOp]
        nodup := by simp [worker.inOp]
        group := by simp [worker.inOp]
        updates := by
          change ∀ u ∈ h.current, _
          simp [sameCurrent]
        appending := by simp [worker.appending]
        unlogged := by simp [worker.unlogged]
        content := ?_ }
    · have loose : LogSystem.Loose
          { s with committing := false, worker := none, history := h } =
          LogPc.finish.Unwritten := by
        funext i
        simp [LogSystem.Loose, worker.unlogged, LogPc.Unwritten]
      have pinned : LogSystem.pinned
          { s with committing := false, worker := none, history := h } = [] :=
        empty
      change IoOk s.io (LogSystem.Loose
        { s with committing := false, worker := none, history := h })
        (LogSystem.pinned
          { s with committing := false, worker := none, history := h })
      rw [loose, pinned]
      exact io
    · intro i dirty _
      obtain ⟨_, mem⟩ := (io.slot i).dirty_iff.mp dirty
      exact absurd mem List.not_mem_nil
  · refine ⟨?_, erased⟩
    change EntriesOk g s.lh
    rw [empty]
    exact ⟨List.nodup_nil, by simp, by simp⟩

/-- Every step of `commit` and `recover_from_log` keeps the invariant. -/
theorem work_consistent (ok : Consistent g home0 s) (running : s.panicked = none)
    (working : s.worker = some w) (stepped : s.workStep g w = some s') :
    Consistent g home0 s' := by
  have worker := (ok.live running).workerOk working
  cases at' : w.pc with
  | head kind bread => exact work_head ok worker at' stepped
  | headData kind i =>
      cases kind with
      | read => exact work_headData_read ok worker at' stepped
      | commit => exact work_headData_write ok worker at' (by simp) stepped
      | clear => exact work_headData_write ok worker at' (by simp) stepped
  | headWrite kind i =>
      cases kind with
      | read =>
          have pc := worker.pc
          simp only [PcOk, at'] at pc
          exact absurd rfl pc.2.2.1
      | commit => exact work_headWrite_commit ok worker at' stepped
      | clear => exact work_headWrite_clear ok worker at' stepped
  | headRelse kind i => exact work_headRelse ok worker at' stepped
  | copyLog kind tail bread => exact work_copyLog ok worker at' stepped
  | copyHome kind tail lbuf bread => exact work_copyHome ok worker at' stepped
  | copyData kind tail lbuf dbuf => exact work_copyData ok worker at' stepped
  | copyWrite kind tail lbuf dbuf =>
      cases kind with
      | toLog => exact work_copyWrite_toLog ok worker at' stepped
      | toHome => exact work_copyWrite_toHome ok worker at' stepped
  | copyRelseSource kind tail lbuf dbuf =>
      exact work_copyRelseSource ok worker at' stepped
  | copyRelseTarget kind tail lbuf dbuf =>
      exact work_copyRelseTarget ok worker at' stepped
  | finish => exact work_finish ok worker at' stepped

end Xv6
