import Xv6.LogWorker

/-!
# Crash atomicity of the log

The steps of the processes keep the invariant, and so does a crash at any
point.  Hence the home blocks after a completed recovery are those of the
committed transactions.
-/

namespace Xv6

open ByteFields RedoLog LabelledRuns

variable {g : LogGeometry} {home0 : Disk} {s s' : LogSystem} {w : LogWorker}
  {io io' : IoState} {pid : Pid} {i : Slot}

/-! ## Steps on the cache -/

/-- The worker does not notice what other processes do. -/
theorem PcOk.frame {lh : List Nat} {h : LogHistory}
    (pc : PcOk g home0 io lh h w) (keeps : Keeps w.pid io io')
    (waits : ∀ i b, Waits io w.pid i b → Waits io' w.pid i b) :
    PcOk g home0 io' lh h w := by
  have bread {b : Nat} {at' : BreadPc} (bOk : BreadOk io w.pid b at') :
      BreadOk io' w.pid b at' := by
    cases at' with
    | get => trivial
    | lock i => exact waits i b bOk
    | fill i => exact keeps.holds bOk
  unfold PcOk at pc ⊢
  rw [keeps.disk]
  cases at' : w.pc with
  | head kind b =>
      simp only [at'] at pc ⊢
      exact ⟨pc.1, bread pc.2⟩
  | headData kind i =>
      simp only [at'] at pc ⊢
      exact ⟨pc.1, (keeps.has pc.2).1⟩
  | headWrite kind i =>
      simp only [at'] at pc ⊢
      obtain ⟨pre, has, writes, entries⟩ := pc
      exact ⟨pre, (keeps.has has).1, writes, by rw [(keeps.has has).2, entries]⟩
  | headRelse kind i =>
      simp only [at'] at pc ⊢
      exact ⟨pc.1, (keeps.has pc.2).1⟩
  | copyLog kind tail b =>
      simp only [at'] at pc ⊢
      exact ⟨pc.1, pc.2.1, bread pc.2.2⟩
  | copyHome kind tail lbuf b =>
      simp only [at'] at pc ⊢
      exact ⟨pc.1, pc.2.1, (keeps.has pc.2.2.1).1, bread pc.2.2.2⟩
  | copyData kind tail lbuf dbuf =>
      simp only [at'] at pc ⊢
      exact ⟨pc.1, pc.2.1, (keeps.has pc.2.2.1).1, (keeps.has pc.2.2.2).1⟩
  | copyWrite kind tail lbuf dbuf =>
      simp only [at'] at pc ⊢
      obtain ⟨pre, inside, hasLog, hasHome, data⟩ := pc
      refine ⟨pre, inside, (keeps.has hasLog).1, (keeps.has hasHome).1, ?_⟩
      rw [← data]
      cases kind with
      | toLog => exact (keeps.has hasLog).2
      | toHome => exact (keeps.has hasHome).2
  | copyRelseSource kind tail lbuf dbuf =>
      simp only [at'] at pc ⊢
      exact ⟨pc.1, pc.2.1, (keeps.has pc.2.2.1).1, (keeps.has pc.2.2.2).1⟩
  | copyRelseTarget kind tail lbuf dbuf =>
      simp only [at'] at pc ⊢
      exact ⟨pc.1, pc.2.1, (keeps.owned _ pc.2.2).1⟩
  | finish =>
      simp only [at'] at pc ⊢
      exact pc

/-- The worker owns the buffer that it has changed. -/
theorem PcOk.owner_of_unwritten {lh : List Nat} {h : LogHistory}
    (pc : PcOk g home0 io lh h w) (unwritten : w.pc.Unwritten i) :
    (io.buf i).owner = some w.pid := by
  unfold PcOk at pc
  cases at' : w.pc with
  | headWrite kind j =>
      simp only [at', LogPc.Unwritten] at pc unwritten
      rw [unwritten]
      exact pc.2.1.owner
  | copyWrite kind tail lbuf dbuf =>
      simp only [at', LogPc.Unwritten] at pc unwritten
      rw [unwritten]
      cases kind with
      | toLog => exact pc.2.2.1.owner
      | toHome => exact pc.2.2.2.1.owner
  | head _ _ | headData _ _ | headRelse _ _ | copyLog _ _ _ | copyHome _ _ _ _
  | copyData _ _ _ _ | copyRelseSource _ _ _ _ | copyRelseTarget _ _ _ _
  | finish =>
      simp [at', LogPc.Unwritten] at unwritten

/-- A step of a process on the cache keeps the invariant when it disturbs
neither the worker nor the buffers being changed by operations. -/
theorem Consistent.of_io (ok : Consistent g home0 s)
    (running : s.panicked = none) (ioOk : IoOk io' s.Loose s.pinned)
    (disk : io'.disk = s.io.disk)
    (worker : ∀ w, s.worker = some w → Keeps w.pid s.io io' ∧
      ∀ i b, Waits s.io w.pid i b → Waits io' w.pid i b)
    (writes : ∀ q j, (q, j) ∈ s.appending ∨ j ∈ s.unlogged →
      s.Writes g q j → (io'.buf j).owner = some q ∧
        (io'.buf j).valid = true ∧ (io'.buf j).blockno = (s.io.buf j).blockno)
    (dirty : ∀ j, (io'.buf j).dirty = true → (s.io.buf j).dirty = true ∧
      (io'.buf j).blockno = (s.io.buf j).blockno ∧
      (io'.buf j).data = (s.io.buf j).data) :
    Consistent g home0 { s with io := io' } := by
  obtain ⟨core, phase⟩ := ok.live running
  have still (q : Pid) (j : Slot) (busy : (q, j) ∈ s.appending ∨ j ∈ s.unlogged)
      (was : s.Writes g q j) : ({ s with io := io' } : LogSystem).Writes g q j := by
    obtain ⟨owner, valid, blockno⟩ := writes q j busy was
    refine ⟨was.1, owner, valid, ?_⟩
    change g.Home (io'.buf j).blockno
    rw [blockno]
    exact was.2.2.2
  refine ⟨?_, ok.history, fun _ => ⟨?_, ?_⟩⟩
  · change DiskOk g io'.disk _
    rw [disk]
    exact ok.disk
  · refine
      { core with
        io := ioOk
        appending := ?_
        unlogged := ?_
        content := ?_ }
    · intro entry mem
      exact still _ _ (.inl mem) (core.appending entry mem)
    · intro j mem
      obtain ⟨q, was⟩ := core.unlogged j mem
      exact ⟨q, still q j (.inr mem) was⟩
    · intro j isDirty logged
      obtain ⟨was, blockno, data⟩ := dirty j isDirty
      change (io'.buf j).data = s.history.newHome home0 (io'.buf j).blockno
      rw [blockno, data]
      exact core.content j was logged
  · unfold PhaseOk at phase ⊢
    cases working : s.worker with
    | none =>
        simp only [working] at phase ⊢
        rw [disk]
        exact phase
    | some w =>
        simp only [working] at phase ⊢
        obtain ⟨keeps, waits⟩ := worker w working
        exact ⟨phase.1, phase.2.1, phase.2.2.frame keeps waits⟩

theorem Keeps.writes (keeps : ∀ q, Keeps q s.io io') (q : Pid) (j : Slot)
    (was : s.Writes g q j) : (io'.buf j).owner = some q ∧
      (io'.buf j).valid = true ∧
      (io'.buf j).blockno = (s.io.buf j).blockno := by
  obtain ⟨owner, _, blockno, valid, _⟩ := (keeps q).owned j was.2.1
  exact ⟨owner, valid.trans was.2.2.1, blockno⟩

theorem bget_consistent {b : Nat} (ok : Consistent g home0 s)
    (running : s.panicked = none) (got : s.io.bget pid b = some (i, io')) :
    Consistent g home0 { s with io := io' } := by
  have io := (ok.live running).core.io
  have keeps := io.keeps_of_bget got
  exact ok.of_io running (io.bget got) (keeps pid).disk
    (fun w _ => ⟨keeps w.pid, fun _ _ => io.waits_of_bget got⟩)
    (fun q j _ => Keeps.writes keeps q j) (keeps pid).dirty

theorem acquire_consistent (ok : Consistent g home0 s)
    (running : s.panicked = none) (client : s.Client pid)
    (acquired : s.io.acquire pid i = some io') :
    Consistent g home0 { s with io := io' } := by
  have io := (ok.live running).core.io
  obtain ⟨⟨_, unowned⟩, waiting, _, disk, same, changed⟩ :=
    IoState.acquire_eq_some acquired
  have keeps (q : Pid) : Keeps q s.io io' := by
    refine .of_slot disk same (by simp [unowned]) fun dirty => ?_
    rw [changed] at dirty ⊢
    exact ⟨dirty, rfl, rfl⟩
  refine ok.of_io running (io.acquire acquired) disk ?_
    (fun q j _ => Keeps.writes keeps q j) (keeps pid).dirty
  intro w working
  refine ⟨keeps w.pid, fun j b waits => waits.of_slot ?_ same ?_ ?_⟩
  · have other := (client w working).2
    rw [waiting]
    refine (List.mem_erase_of_ne ?_).mpr waits.waiting
    simp [other]
  · rw [changed]
  · rw [changed]

theorem fill_consistent (ok : Consistent g home0 s)
    (running : s.panicked = none) (client : s.Client pid)
    (owner : (s.io.buf i).owner = some pid)
    (invalid : (s.io.buf i).valid = false) (filled : s.io.fill i = some io') :
    Consistent g home0 { s with io := io' } := by
  have io := (ok.live running).core.io
  obtain ⟨_, waiting, disk, same, changed⟩ := IoState.fill_eq_some filled
  have dirty (j : Slot) (isDirty : (io'.buf j).dirty = true) :
      (s.io.buf j).dirty = true ∧
        (io'.buf j).blockno = (s.io.buf j).blockno ∧
        (io'.buf j).data = (s.io.buf j).data := by
    by_cases here : j = i
    · subst here
      rw [changed] at isDirty
      have := (io.slot j).dirty_valid isDirty
      rw [invalid] at this
      cases this
    · rw [same j here] at isDirty ⊢
      exact ⟨isDirty, rfl, rfl⟩
  refine ok.of_io running (io.fill (by simp [owner]) filled) disk ?_ ?_ dirty
  · intro w working
    have other := (client w working).2
    refine ⟨.of_slot disk same ?_ (dirty i), fun j b waits =>
      waits.of_slot ?_ same ?_ ?_⟩
    · rw [owner]
      simpa using Ne.symm other
    · rw [waiting]
      exact waits.waiting
    · rw [changed]
    · rw [changed]
  · intro q j _ was
    have here : j ≠ i := by
      rintro rfl
      have := was.2.2.1
      rw [invalid] at this
      cases this
    rw [same j here]
    exact ⟨was.2.1, was.2.2.1, rfl⟩

theorem brelse_consistent (ok : Consistent g home0 s)
    (running : s.panicked = none) (ready : s.Ready pid)
    (owner : (s.io.buf i).owner = some pid) (logged : i ∉ s.unlogged) :
    Consistent g home0 { s with io := s.io.brelse pid i } := by
  obtain ⟨core, phase⟩ := ok.live running
  obtain ⟨same, changed⟩ := s.io.brelse_buf pid i
  have tight : ¬ s.Loose i := by
    rintro (unlogged | ⟨w, working, unwritten⟩)
    · exact logged unlogged
    · simp only [PhaseOk, Option.mem_def.mp working] at phase
      have := phase.2.2.owner_of_unwritten unwritten
      rw [owner] at this
      exact (ready.1 w working).2 (Option.some.inj this).symm
  refine ok.of_io running (core.io.brelse tight owner) rfl ?_ ?_
    (brelse_dirty s.io pid i)
  · intro w working
    have other := (ready.1 w working).2
    refine ⟨.of_slot rfl same ?_ (brelse_dirty s.io pid i i), fun j b waits =>
      waits.of_slot waits.waiting same ?_ ?_⟩
    · rw [owner]
      simpa using Ne.symm other
    · rw [changed]
    · rw [changed]
  · intro q j busy was
    have here : j ≠ i := by
      rintro rfl
      rcases busy with appending | unlogged
      · have : q = pid := by
          have := was.2.1
          rw [owner] at this
          exact (Option.some.inj this).symm
        subst this
        exact ready.2.2.1 (List.mem_map.mpr ⟨_, appending, rfl⟩)
      · exact logged unlogged
    rw [same j here]
    exact ⟨was.2.1, was.2.2.1, rfl⟩

theorem unref_consistent (ok : Consistent g home0 s) (running : s.panicked = none)
    (released : s.io.unref pid i = some io') : Consistent g home0 { s with io := io' } := by
  obtain ⟨-, waiting, -, disk, same, changed⟩ := IoState.unref_eq_some released
  have keeps := IoOk.keeps_of_unref released
  refine ok.of_io running ((ok.live running).core.io.unref released) disk
    (fun w _ => ⟨keeps w.pid, fun j b waits => waits.of_slot ?_ same ?_ ?_⟩)
    (fun q j _ => Keeps.writes keeps q j) (keeps pid).dirty
  · rw [waiting]
    exact waits.waiting
  · rw [changed]
  · rw [changed]

/-! ## Steps of the operations -/

/-- While an operation is outstanding there is no worker. -/
theorem Live.no_worker (live : Live g home0 s) (inOp : s.InOp pid) :
    s.worker = none := by
  cases working : s.worker with
  | none => rfl
  | some w =>
      have none := (live.workerOk working).inOp
      simp [LogSystem.InOp, none] at inOp

/-- Without a worker the loose buffers are the unlogged ones. -/
theorem loose_iff (idle : s.worker = none) (j : Slot) :
    s.Loose j ↔ j ∈ s.unlogged := by
  simp [LogSystem.Loose, idle]

theorem pinned_eq (idle : s.worker = none) : s.pinned = s.lh := by
  simp [LogSystem.pinned, idle]

theorem Live.phase_idle (live : Live g home0 s) (idle : s.worker = none) :
    EntriesOk g s.lh ∧ headerEntries (s.io.disk g.start) = [] := by
  have phase := live.phase
  simpa only [PhaseOk, idle] using phase

theorem modify_consistent {data : Block} (ok : Consistent g home0 s)
    (running : s.panicked = none) (writes : s.Writes g pid i) :
    Consistent g home0
      { s with io := s.io.setData i data, unlogged := i :: s.unlogged } := by
  have live := ok.live running
  have idle := live.no_worker writes.1
  have core := live.core
  have held : (s.io.buf i).owner ≠ none := by
    simp [writes.2.1]
  have still (q : Pid) (j : Slot) (was : s.Writes g q j) :
      LogSystem.Writes g
        { s with io := s.io.setData i data, unlogged := i :: s.unlogged } q j := by
    obtain ⟨inOp, owner, valid, isHome⟩ := was
    by_cases here : j = i
    · subst here
      exact ⟨inOp, by simpa [IoState.setData], by simpa [IoState.setData],
        by simpa [IoState.setData]⟩
    · exact ⟨inOp, by simpa [IoState.setData, here],
        by simpa [IoState.setData, here], by simpa [IoState.setData, here]⟩
  refine ⟨ok.disk, ok.history, fun _ => ⟨?_, ?_⟩⟩
  · refine
      { core with
        io := ?_
        appending := fun entry mem => still _ _ (core.appending entry mem)
        unlogged := ?_
        content := ?_ }
    · have io := core.io.setData data held
      refine cast (congrArg (IoOk _ · _) ?_) io
      funext j
      simp [LogSystem.Loose, idle, or_comm]
    · intro j mem
      rcases List.mem_cons.mp mem with rfl | old
      · exact ⟨pid, still pid j writes⟩
      · obtain ⟨q, was⟩ := core.unlogged j old
        exact ⟨q, still q j was⟩
    · intro j dirty logged
      simp only [List.mem_cons, not_or] at logged
      have same : (s.io.setData i data).buf j = s.io.buf j := by
        simp [IoState.setData, logged.1]
      change ((s.io.setData i data).buf j).data = s.history.newHome home0
        ((s.io.setData i data).buf j).blockno
      change ((s.io.setData i data).buf j).dirty = true at dirty
      rw [same] at dirty ⊢
      exact core.content j dirty logged.2
  · have phase := live.phase
    simp only [PhaseOk, idle] at phase ⊢
    exact phase

theorem logWrite_consistent (ok : Consistent g home0 s)
    (running : s.panicked = none) (writes : s.Writes g pid i) :
    Consistent g home0 (s.logWrite g pid i) := by
  unfold LogSystem.logWrite
  split
  · exact ok.panic _
  · split
    · exact ok.panic _
    · obtain ⟨core, phase⟩ := ok.live running
      refine ⟨ok.disk, ok.history, fun _ => ⟨?_, phase⟩⟩
      refine { core with appending := ?_ }
      intro entry mem
      rcases List.mem_cons.mp mem with rfl | old
      · exact writes
      · exact core.appending entry old

theorem mem_absorb (lh : List Nat) (blockno b : Nat) :
    b ∈ LogSystem.absorb lh blockno ↔ b ∈ lh ∨ b = blockno := by
  unfold LogSystem.absorb
  split
  · rename_i mem
    refine ⟨.inl, ?_⟩
    rintro (old | rfl)
    · exact old
    · exact mem
  · simp

theorem EntriesOk.absorb {lh : List Nat} {blockno : Nat} (ok : EntriesOk g lh)
    (isHome : g.Home blockno) (bounded : blockno < fssize) :
    EntriesOk g (LogSystem.absorb lh blockno) := by
  refine ⟨?_, ?_, ?_⟩
  · unfold LogSystem.absorb
    split
    · exact ok.nodup
    · rename_i fresh
      rw [List.nodup_append]
      refine ⟨ok.nodup, List.nodup_singleton _, ?_⟩
      rintro a old b new rfl
      exact fresh (List.mem_singleton.mp new ▸ old)
  · intro b mem
    rcases (mem_absorb lh blockno b).mp mem with old | rfl
    · exact ok.isHome b old
    · exact isHome
  · intro b mem
    rcases (mem_absorb lh blockno b).mp mem with old | rfl
    · exact ok.bounded b old
    · exact bounded

theorem logAppend_consistent {op : Nat} (ok : Consistent g home0 s)
    (running : s.panicked = none) (mem : (pid, i) ∈ s.appending)
    (inOp : (pid, op) ∈ s.inOp) :
    Consistent g home0 (s.logAppend pid op i) := by
  have live := ok.live running
  have core := live.core
  have writes := core.appending _ mem
  have idle := live.no_worker writes.1
  obtain ⟨entries, erased⟩ := live.phase_idle idle
  have held : (s.io.buf i).owner ≠ none := by
    simp [writes.2.1]
  have dev := core.io.dev_of_refcnt_pos (core.io.refcnt_pos_of_owner held)
  have bounded := (core.io.slot i).bounded writes.2.2.1
  have fields (j : Slot) : ((s.io.setDirty i).buf j).owner = (s.io.buf j).owner ∧
      ((s.io.setDirty i).buf j).valid = (s.io.buf j).valid ∧
      ((s.io.setDirty i).buf j).blockno = (s.io.buf j).blockno ∧
      ((s.io.setDirty i).buf j).data = (s.io.buf j).data := by
    by_cases here : j = i <;> simp [IoState.setDirty, here]
  have still (q : Pid) (j : Slot) (was : s.Writes g q j) :
      (s.logAppend pid op i).Writes g q j := by
    obtain ⟨owner, valid, blockno, _⟩ := fields j
    refine ⟨was.1, owner.trans was.2.1, valid.trans was.2.2.1, ?_⟩
    change g.Home ((s.io.setDirty i).buf j).blockno
    rw [blockno]
    exact was.2.2.2
  refine ⟨?_, ok.history.append (core.group _ inOp), fun _ => ⟨?_, ?_⟩⟩
  · exact ok.disk
  · refine
      { outstanding := core.outstanding
        nodup := core.nodup
        group := core.group
        io := ?_
        updates := ?_
        appending := fun entry old =>
          still _ _ (core.appending entry (List.mem_of_mem_erase old))
        unlogged := ?_
        content := ?_ }
    · rw [pinned_eq (s := s.logAppend pid op i) idle]
      have io := core.io
      rw [pinned_eq idle] at io
      refine io.setDirty writes.2.2.1 held ?_ (mem_absorb _ _)
      intro j here
      rw [loose_iff (s := s.logAppend pid op i) idle, loose_iff idle]
      simp [LogSystem.logAppend, here]
    · intro u inCurrent
      refine (mem_absorb _ _ _).mpr ?_
      rcases List.mem_append.mp inCurrent with old | new
      · exact .inl (core.updates u old)
      · cases List.mem_singleton.mp new
        exact .inr rfl
    · intro j old
      obtain ⟨q, was⟩ := core.unlogged j (List.mem_of_mem_filter old)
      exact ⟨q, still q j was⟩
    · intro j dirty logged
      obtain ⟨_, _, blockno, data⟩ := fields j
      change ((s.io.setDirty i).buf j).data =
        (s.history.append _).newHome home0 ((s.io.setDirty i).buf j).blockno
      rw [blockno, data, LogHistory.newHome_append]
      by_cases here : j = i
      · subst here
        simp
      · change ((s.io.setDirty i).buf j).dirty = true at dirty
        have same : (s.io.setDirty i).buf j = s.io.buf j := by
          simp [IoState.setDirty, here]
        rw [same] at dirty
        have apart : (s.io.buf j).blockno ≠ (s.io.buf i).blockno := fun eq =>
          here (core.io.unique j i (core.io.dev_of_dirty dirty) dev eq)
        rw [Function.update_of_ne apart]
        refine core.content j dirty fun unlogged => logged ?_
        simpa [LogSystem.logAppend, here] using unlogged
  · simp only [PhaseOk, LogSystem.logAppend, idle]
    exact ⟨entries.absorb writes.2.2.2 bounded, erased⟩

theorem beginOp_consistent (ok : Consistent g home0 s)
    (running : s.panicked = none) (client : s.Client pid)
    (fresh : ¬ s.InOp pid) (began : s.beginOp pid = some s') :
    Consistent g home0 s' := by
  have live := ok.live running
  have core := live.core
  unfold LogSystem.beginOp at began
  split at began
  · cases began
  · rename_i notCommitting
    split at began
    · cases began
    · cases began
      have idle : s.worker = none := by
        cases working : s.worker with
        | none => rfl
        | some w =>
            have worker := live.workerOk working
            exact absurd (worker.committing (client w working).1) notCommitting
      refine ⟨ok.disk, ok.history.beginOp, fun _ => ⟨?_, ?_⟩⟩
      · have still (q : Pid) (j : Slot) (was : s.Writes g q j) :
            LogSystem.Writes g
              { s with
                outstanding := s.outstanding + 1
                inOp := (pid, s.history.nextOp) :: s.inOp
                history := s.history.beginOp } q j :=
          ⟨List.mem_cons_of_mem _ was.1, was.2⟩
        refine
          { io := core.io
            outstanding := by simp [core.outstanding]
            nodup := List.nodup_cons.mpr ⟨fresh, core.nodup⟩
            group := ?_
            updates := core.updates
            appending := fun entry mem => still _ _ (core.appending entry mem)
            unlogged := fun j mem => ?_
            content := core.content }
        · intro entry mem
          rcases List.mem_cons.mp mem with rfl | old
          · exact List.mem_cons_self
          · exact List.mem_cons_of_mem _ (core.group entry old)
        · obtain ⟨q, was⟩ := core.unlogged j mem
          exact ⟨q, still q j was⟩
      · have phase := live.phase
        simp only [PhaseOk, idle] at phase ⊢
        exact phase

/-- The operations that stay outstanding when one ends. -/
theorem mem_eraseP_of_ne {inOp : List (Pid × Nat)} {q : Pid}
    (mem : q ∈ inOp.map Prod.fst) (other : q ≠ pid) :
    q ∈ (inOp.eraseP fun entry => entry.1 = pid).map Prod.fst := by
  obtain ⟨entry, inside, rfl⟩ := List.mem_map.mp mem
  exact List.mem_map.mpr ⟨entry,
    (List.mem_eraseP_of_neg (by simpa using other)).mpr inside, rfl⟩

theorem length_eraseP {inOp : List (Pid × Nat)}
    (mem : pid ∈ inOp.map Prod.fst) :
    (inOp.eraseP fun entry => entry.1 = pid).length = inOp.length - 1 := by
  obtain ⟨entry, inside, same⟩ := List.mem_map.mp mem
  exact List.length_eraseP_of_mem inside (by simpa using same)

/-- `end_op` when it is the last one: `commit` starts. -/
theorem endOp_commit (pid : Pid) (ok : Consistent g home0 s)
    (last : s.outstanding = 0) (inOp : s.inOp = []) (appending : s.appending = [])
    (unlogged : s.unlogged = []) (io : IoOk s.io (fun _ => False) s.lh)
    (updates : ∀ u ∈ s.history.current, u.blockno ∈ s.lh)
    (content : ∀ i, (s.io.buf i).dirty = true →
      (s.io.buf i).data = s.history.newHome home0 (s.io.buf i).blockno)
    (entries : EntriesOk g s.lh)
    (erased : headerEntries (s.io.disk g.start) = []) :
    Consistent g home0
      (if 0 < s.lh.length then
        { s with committing := true }.goto ⟨pid, false, .finish⟩
          (.copyLog .toLog 0 .get)
      else
        { s with committing := true, history := s.history.commit }.goto
          ⟨pid, false, .finish⟩ .finish) := by
  split
  · rename_i some
    refine ⟨ok.disk, ok.history, fun _ => WorkerOk.live
      (w := ⟨pid, false, .copyLog .toLog 0 .get⟩) ?_ rfl⟩
    exact
      { committing := fun _ => rfl
        outstanding := last
        inOp := inOp
        appending := appending
        unlogged := unlogged
        io := io
        updates := updates
        content := content
        pc := ⟨⟨rfl, entries, erased, .inl rfl, fun _ _ none =>
          absurd none (Nat.not_lt_zero _)⟩, some, trivial⟩ }
  · rename_i none
    have empty : s.lh = [] := List.length_eq_zero_iff.mp (by omega)
    have current : s.history.current = [] := by
      refine List.eq_nil_iff_forall_not_mem.mpr fun u mem => ?_
      have := updates u mem
      simp [empty] at this
    have sameHome : s.history.commit.home home0 = s.history.home home0 := by
      rw [LogHistory.home_commit, LogHistory.newHome_of_current current]
    refine ⟨?_, ok.history.commit, fun _ => WorkerOk.live
      (w := ⟨pid, false, .finish⟩) ?_ rfl⟩
    · change DiskOk g s.io.disk (s.history.commit.home home0)
      rw [sameHome]
      exact ok.disk
    · refine
        { committing := fun _ => rfl
          outstanding := last
          inOp := inOp
          appending := appending
          unlogged := unlogged
          io := io
          updates := fun _ none => absurd none List.not_mem_nil
          content := ?_
          pc := ⟨empty, erased⟩ }
      intro j dirty
      have mem := ((io.slot j).dirty_iff.mp dirty).2
      simp [empty] at mem

theorem endOp_consistent (ok : Consistent g home0 s)
    (running : s.panicked = none) (ready : s.Ready pid) (inOp : s.InOp pid)
    (logged : ∀ i ∈ s.unlogged, (s.io.buf i).owner ≠ some pid) :
    Consistent g home0 (s.endOp pid) := by
  have live := ok.live running
  have core := live.core
  have idle := live.no_worker inOp
  obtain ⟨entries, erased⟩ := live.phase_idle idle
  let s1 : LogSystem :=
    { s with
      outstanding := s.outstanding - 1
      inOp := s.inOp.eraseP fun entry => entry.1 = pid }
  have still (q : Pid) (j : Slot) (was : s.Writes g q j) (other : q ≠ pid) :
      s1.Writes g q j :=
    ⟨mem_eraseP_of_ne was.1 other, was.2⟩
  have core1 : Core g home0 s1 s.Loose s.pinned := by
    refine
      { io := core.io
        outstanding := ?_
        nodup := ?_
        group := fun entry mem =>
          core.group entry (List.mem_of_mem_eraseP mem)
        updates := core.updates
        appending := ?_
        unlogged := ?_
        content := core.content }
    · change s.outstanding - 1 = _
      rw [core.outstanding, ← length_eraseP inOp]
    · exact core.nodup.sublist (List.Sublist.map _ List.eraseP_sublist)
    · intro entry mem
      refine still _ _ (core.appending entry mem) fun same => ?_
      exact ready.2.2.1 (same ▸ List.mem_map_of_mem mem)
    · intro j mem
      obtain ⟨q, was⟩ := core.unlogged j mem
      refine ⟨q, still q j was ?_⟩
      rintro rfl
      exact logged j mem was.2.1
  have ok1 : Consistent g home0 s1 := by
    refine ⟨ok.disk, ok.history, fun _ => ⟨core1, ?_⟩⟩
    simp only [PhaseOk, s1, idle]
    exact ⟨entries, erased⟩
  change Consistent g home0 (if s1.committing then s1.panic .logCommitting
    else _)
  split
  · exact ok1.panic _
  · split
    · rename_i _ last
      change s1.outstanding = 0 at last
      have noOp : s1.inOp = [] :=
        List.length_eq_zero_iff.mp (core1.outstanding.symm.trans last)
      have appending : s1.appending = [] := by
        refine List.eq_nil_iff_forall_not_mem.mpr fun entry mem => ?_
        have := (core1.appending entry mem).1
        simp [LogSystem.InOp, noOp] at this
      have unlogged : s1.unlogged = [] := by
        refine List.eq_nil_iff_forall_not_mem.mpr fun j mem => ?_
        obtain ⟨q, was⟩ := core1.unlogged j mem
        have := was.1
        simp [LogSystem.InOp, noOp] at this
      have io : IoOk s1.io (fun _ => False) s1.lh := by
        have io := core.io
        rw [pinned_eq idle] at io
        refine cast (congrArg (IoOk _ · _) ?_) io
        funext j
        rw [loose_iff idle, show s.unlogged = [] from unlogged]
        simp
      have started := endOp_commit pid ok1 last noOp appending unlogged io
        core1.updates (fun j dirty => core1.content j dirty (by simp [unlogged]))
        entries erased
      exact started
    · exact ok1

/-! ## Boot and crash -/

theorem binit_order : binit.order.Perm (List.finRange nbuf) :=
  List.reverse_perm _

/-- A machine that boots from a recoverable disk. -/
theorem boot_consistent {disk : Disk} {h : LogHistory}
    (ok : DiskOk g disk (h.home home0)) (history : h.Ok)
    (current : h.current = []) :
    Consistent g home0 (LogSystem.boot disk h) := by
  refine ⟨ok, history, fun _ => WorkerOk.live
    (w := ⟨1, true, .head .read .get⟩) ?_ rfl⟩
  refine
    { committing := fun none => by cases none
      outstanding := rfl
      inOp := rfl
      appending := rfl
      unlogged := rfl
      io := ?_
      updates := ?_
      content := ?_
      pc := ⟨⟨rfl, current⟩, trivial⟩ }
  · refine ⟨binit_order, fun i => ?_, ?_, ?_⟩
    · constructor <;> simp [LogSystem.boot, IoState.buf, IoState.refs_eq, binit, LogPc.Unwritten]
    · simp [LogSystem.boot, IoState.buf, binit]
    · simp
  · change ∀ u ∈ h.current, _
    simp [current]
  · simp [LogSystem.boot, IoState.buf, binit]

/-- Every step keeps the invariant. -/
theorem step_consistent {label : LogLabel} (ok : Consistent g home0 s)
    (stepped : s.step g label = some s') : Consistent g home0 s' := by
  cases label with
  | crash =>
      cases stepped
      exact boot_consistent ok.disk ok.history.crash rfl
  | beginOp pid =>
      simp only [LogSystem.step, LogSystem.liveStep,
        Option.ite_none_right_eq_some] at stepped
      obtain ⟨running, ⟨ready, fresh⟩, began⟩ := stepped
      exact beginOp_consistent ok running ready.1 fresh began
  | endOp pid =>
      simp only [LogSystem.step, LogSystem.liveStep,
        Option.ite_none_right_eq_some, Option.some.injEq] at stepped
      obtain ⟨running, ⟨ready, inOp, logged⟩, rfl⟩ := stepped
      exact endOp_consistent ok running ready inOp logged
  | bget pid blockno =>
      simp only [LogSystem.step, LogSystem.liveStep,
        Option.ite_none_right_eq_some] at stepped
      obtain ⟨running, _, result⟩ := stepped
      split at result
      · rename_i i io got
        cases result
        exact bget_consistent ok running got
      · cases result
        exact ok.panic _
  | acquire pid i =>
      simp only [LogSystem.step, LogSystem.liveStep,
        Option.ite_none_right_eq_some] at stepped
      obtain ⟨running, client, result⟩ := stepped
      split at result
      · rename_i io acquired
        cases result
        exact acquire_consistent ok running client acquired
      · cases result
  | fill pid i =>
      simp only [LogSystem.step, LogSystem.liveStep,
        Option.ite_none_right_eq_some] at stepped
      obtain ⟨running, ⟨ready, owner, invalid⟩, result⟩ := stepped
      split at result
      · rename_i io filled
        cases result
        exact fill_consistent ok running ready.1 owner invalid filled
      · cases result
        exact ok.panic _
  | modify pid i data =>
      simp only [LogSystem.step, LogSystem.liveStep,
        Option.ite_none_right_eq_some, Option.some.injEq] at stepped
      obtain ⟨running, ⟨_, writes⟩, rfl⟩ := stepped
      exact modify_consistent ok running writes
  | logWrite pid i =>
      simp only [LogSystem.step, LogSystem.liveStep,
        Option.ite_none_right_eq_some, Option.some.injEq] at stepped
      obtain ⟨running, ⟨_, writes⟩, rfl⟩ := stepped
      exact logWrite_consistent ok running writes
  | logAppend pid i =>
      simp only [LogSystem.step, LogSystem.liveStep,
        Option.ite_none_right_eq_some] at stepped
      obtain ⟨running, ⟨_, mem⟩, result⟩ := stepped
      split at result
      · rename_i entry op found
        cases result
        have same : entry = pid := by simpa using List.find?_some found
        subst same
        exact logAppend_consistent ok running mem (List.mem_of_find?_eq_some found)
      · cases result
  | brelse pid i =>
      simp only [LogSystem.step, LogSystem.liveStep,
        Option.ite_none_right_eq_some, Option.some.injEq] at stepped
      obtain ⟨running, ⟨ready, owner, logged⟩, rfl⟩ := stepped
      exact brelse_consistent ok running ready owner logged
  | unref pid i =>
      simp only [LogSystem.step, LogSystem.liveStep,
        Option.ite_none_right_eq_some] at stepped
      obtain ⟨running, result⟩ := stepped
      split at result
      · rename_i io released
        cases result
        exact unref_consistent ok running released
      · cases result
  | work =>
      simp only [LogSystem.step, LogSystem.liveStep,
        Option.ite_none_right_eq_some] at stepped
      obtain ⟨running, result⟩ := stepped
      split at result
      · rename_i w working
        exact work_consistent ok running working (Option.ite_none_right_eq_some.mp result).2
      · cases result

/-- Crash atomicity.  Start from a disk that is recoverable to the home blocks
`home0`, and let operations, commits, crashes and recoveries follow in any
order.  Whenever recovery has completed, the home blocks are those of the
committed transactions; every operation is in one of them with all of its
updates or has none there, and the operations whose commit returned are in. -/
theorem home_eq_committed {disk : Disk} {labels : List LogLabel}
    (image : DiskOk g disk home0)
    (ran : run (LogSystem.step g) (LogSystem.boot disk .empty) labels = some s)
    (recovered : s.worker = none) (running : s.panicked = none) :
    (∀ b, g.Home b →
        s.io.disk b = applyUpdates s.history.committedUpdates home0 b) ∧
      (∀ op, updatesOf op s.history.committedUpdates =
          updatesOf op s.history.made ∨
        updatesOf op s.history.committedUpdates = []) ∧
      ∀ op ∈ s.history.returned, updatesOf op s.history.committedUpdates =
        updatesOf op s.history.made := by
  have start : Consistent g home0 (LogSystem.boot disk .empty) :=
    boot_consistent image LogHistory.Ok.empty rfl
  have ok : Consistent g home0 s :=
    invariant_of_run step_consistent start ran
  have erased := ((ok.live running).phase_idle recovered).2
  refine ⟨ok.disk.home_of_erased erased, fun op => ?_, fun op mem => ?_⟩
  · by_cases committed : op ∈ s.history.committedOps
    · exact .inl (ok.history.whole op committed)
    · exact .inr (ok.history.absent op committed)
  · exact ok.history.whole op (ok.history.returned op mem)

/-- The log as `mkfs` lays it out. -/
def mkfsGeometry : LogGeometry :=
  ⟨2, logsize, le_rfl⟩

/-- A disk of zeroes, whose commit record is empty. -/
def blankDisk : Disk :=
  fun _ _ => 0

theorem blankDisk_ok : DiskOk mkfsGeometry blankDisk blankDisk :=
  .of_erased (by decide +kernel) fun _ _ => rfl

local instance commitThenCrash_neZero : NeZero 30 := ⟨by decide⟩

/-- The first process reads the header of an empty log and writes it back. -/
def recoverEmpty : List LogLabel :=
  List.replicate 5 LogLabel.work ++ LogLabel.unref 1 0 ::
    List.replicate 6 LogLabel.work ++ [LogLabel.unref 1 0, .work]

/-- An operation of process 5 changes block 60 and commits; the machine
crashes right after the commit record is written, and recovers. -/
def commitThenCrash : List LogLabel :=
  recoverEmpty ++
    [LogLabel.beginOp 5, .bget 5 60, .acquire 5 1, .fill 5 1,
      .modify 5 1 fun _ => 1, .logWrite 5 1, .logAppend 5 1, .brelse 5 1,
      .unref 5 1, .endOp 5] ++
    List.replicate 9 LogLabel.work ++ [LogLabel.unref 5 1, .work, .unref 5 2] ++
    List.replicate 5 LogLabel.work ++ [LogLabel.crash] ++
    List.replicate 5 LogLabel.work ++ LogLabel.unref 1 0 ::
    List.replicate 9 LogLabel.work ++ [LogLabel.unref 1 1, .work, .unref 1 2] ++
    List.replicate 6 LogLabel.work ++ [LogLabel.unref 1 0, .work]

theorem commitThenCrash_home_eq_committed :
    ∃ s, run (LogSystem.step mkfsGeometry) (LogSystem.boot blankDisk .empty)
        commitThenCrash = some s ∧
      s.worker = none ∧ s.panicked = none ∧
      (∀ b, mkfsGeometry.Home b →
        s.io.disk b = applyUpdates s.history.committedUpdates blankDisk b) ∧
      (∀ op, updatesOf op s.history.committedUpdates =
          updatesOf op s.history.made ∨
        updatesOf op s.history.committedUpdates = []) ∧
      ∀ op ∈ s.history.returned, updatesOf op s.history.committedUpdates =
        updatesOf op s.history.made := by
  have recovered : ((run (LogSystem.step mkfsGeometry)
      (LogSystem.boot blankDisk .empty) commitThenCrash).any fun s =>
        s.worker.isNone && s.panicked.isNone) = true := by
    decide +kernel
  obtain ⟨s, ran, quiet⟩ := (Option.any_eq_true _ _).mp recovered
  rw [Bool.and_eq_true, Option.isNone_iff_eq_none, Option.isNone_iff_eq_none]
    at quiet
  exact ⟨s, ran, quiet.1, quiet.2,
    home_eq_committed blankDisk_ok ran quiet.1 quiet.2⟩

end Xv6
