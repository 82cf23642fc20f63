import Mathlib.Algebra.Order.BigOperators.Group.List
import Mathlib.Data.List.Dedup
import Xv6.LogAtomicity

/-!
# Admission control of the log

`begin_op` reserves `MAXOPBLOCKS` blocks for each operation out of `LOGSIZE`,
while `log_write` panics when `log.size - 1` blocks are logged, before it looks
for an entry to absorb.  With the `LOGSIZE` blocks that `mkfs` reserves, one of
them the header, the panic is reached exactly when an operation calls
`log_write` after the operations since the last commit have logged
`LOGSIZE - 1` distinct blocks.
-/

namespace Xv6

open LabelledRuns

/-- The distinct blocks logged by the operations since the last commit. -/
def loggedBlocks (s : LogSystem) : List Nat :=
  (s.history.current.map LogUpdate.blockno).dedup

/-- Fewer than `LOGSIZE - 1` distinct blocks have been logged when an operation
calls `log_write`. -/
def Roomy (s : LogSystem) : LogLabel → Prop
  | .logWrite _ _ => (loggedBlocks s).length < logsize - 1
  | _ => True

/-- The distinct blocks that an operation has passed to `log_write`. -/
def loggedBy (h : LogHistory) (op : Nat) : List Nat :=
  ((updatesOf op h.made).map LogUpdate.blockno).dedup

/-- How many more distinct blocks the operations in progress may pass to
`log_write`. -/
def reserved (s : LogSystem) : Nat :=
  (s.inOp.map fun entry => maxopblocks - (loggedBy s.history entry.2).length).sum

/-- When an operation calls `log_write`, those in progress have two of their
blocks left, or fewer than `LOGSIZE - 1` distinct blocks have been logged. -/
def Spare (s : LogSystem) : LogLabel → Prop
  | .logWrite _ _ => 2 ≤ reserved s ∨ (loggedBlocks s).length < logsize - 1
  | _ => True

instance (s : LogSystem) : (label : LogLabel) → Decidable (Spare s label)
  | .logWrite _ _ => inferInstanceAs (Decidable (_ ∨ _))
  | .beginOp _ | .endOp _ | .bget _ _ | .acquire _ _ | .fill _ _
  | .modify _ _ _ | .logAppend _ _ | .brelse _ _ | .unref _ _ | .work | .crash =>
      isTrue trivial

/-- The distinct blocks that an operation has passed to `log_write`, with one
more. -/
def opBlocks (s : LogSystem) (op blockno : Nat) : List Nat :=
  (blockno :: (updatesOf op s.history.made).map LogUpdate.blockno).dedup

/-- Each operation calls `log_write` on at most `MAXOPBLOCKS` distinct
blocks. -/
def WithinMaxopblocks (s : LogSystem) : LogLabel → Prop
  | .logWrite pid i => ∀ entry ∈ s.inOp, entry.1 = pid →
      (opBlocks s entry.2 (s.io.buf i).blockno).length ≤ maxopblocks
  | _ => True

instance (s : LogSystem) : (label : LogLabel) →
    Decidable (WithinMaxopblocks s label)
  | .logWrite _ _ => inferInstanceAs (Decidable (∀ entry ∈ s.inOp, _))
  | .beginOp _ | .endOp _ | .bget _ _ | .acquire _ _ | .fill _ _
  | .modify _ _ _ | .logAppend _ _ | .brelse _ _ | .unref _ _ | .work | .crash =>
      isTrue trivial

variable {g : LogGeometry} {home0 : Disk} {s s' : LogSystem} {w : LogWorker}

/-- Between commits every logged block was logged by an operation. -/
def Justified (s : LogSystem) : Prop :=
  s.panicked = none → s.worker = none →
    ∀ b ∈ s.lh, b ∈ s.history.current.map LogUpdate.blockno

/-! ## Steps that do not panic with "too big a transaction" -/

theorem breadStep_panicked {blockno : Nat} {again : BreadPc → LogPc}
    {done : Slot → LogPc} {bread : BreadPc} (running : s.panicked = none)
    (stepped : s.breadStep w blockno again done bread = some s') :
    s'.panicked ≠ some .tooBig ∧ (s'.panicked = none → s'.worker ≠ none) := by
  cases bread with
  | get =>
      simp only [LogSystem.breadStep] at stepped
      split at stepped <;> cases stepped <;>
        simp [LogSystem.goto, LogSystem.panic, running]
  | lock i =>
      simp only [LogSystem.breadStep] at stepped
      split at stepped <;> cases stepped
      simp [LogSystem.goto, running]
  | fill i =>
      simp only [LogSystem.breadStep] at stepped
      split at stepped
      · cases stepped
        simp [LogSystem.goto, running]
      · split at stepped <;> cases stepped <;>
          simp [LogSystem.goto, LogSystem.panic, running]

theorem copyTest_panicked {kind : CopyKind} {tail : Nat}
    (running : s.panicked = none) :
    (s.copyTest w kind tail).panicked = none ∧
      (s.copyTest w kind tail).worker ≠ none := by
  unfold LogSystem.copyTest
  split
  · exact ⟨running, by simp [LogSystem.goto]⟩
  · cases kind <;> exact ⟨running, by simp [LogSystem.goto]⟩

/-- The worker never panics that way, and it is gone only after `finish`. -/
theorem workStep_panicked (running : s.panicked = none)
    (stepped : s.workStep g w = some s') :
    s'.panicked ≠ some .tooBig ∧
      (s'.panicked = none → s'.worker = none → w.pc = .finish ∧
        s'.lh = s.lh) := by
  have of_bread {s'' : LogSystem}
      (spec : s''.panicked ≠ some .tooBig ∧
        (s''.panicked = none → s''.worker ≠ none)) :
      s''.panicked ≠ some .tooBig ∧
        (s''.panicked = none → s''.worker = none → w.pc = .finish ∧
          s''.lh = s.lh) :=
    ⟨spec.1, fun live none => absurd none (spec.2 live)⟩
  have of_copy {s1 : LogSystem} {kind : CopyKind} {tail : Nat}
      (live : s1.panicked = none) :
      (s1.copyTest w kind tail).panicked ≠ some .tooBig ∧
        ((s1.copyTest w kind tail).panicked = none →
          (s1.copyTest w kind tail).worker = none → w.pc = .finish ∧
            (s1.copyTest w kind tail).lh = s.lh) :=
    of_bread ⟨by simp [(copyTest_panicked live).1],
      fun _ => (copyTest_panicked live).2⟩
  unfold LogSystem.workStep at stepped
  cases at' : w.pc with
  | head kind bread =>
      simp only [at'] at stepped
      exact at' ▸ of_bread (breadStep_panicked running stepped)
  | headData kind i =>
      cases kind <;> simp only [at', Option.some.injEq] at stepped <;>
        subst stepped <;> simp [LogSystem.goto, running]
  | headWrite kind i =>
      simp only [at'] at stepped
      split at stepped <;> cases stepped <;>
        simp [LogSystem.goto, LogSystem.panic, running]
  | headRelse kind i =>
      cases kind <;> simp only [at', Option.some.injEq] at stepped <;>
        subst stepped
      · exact at' ▸ of_copy running
      · exact at' ▸ of_copy running
      · simp [LogSystem.goto, running]
  | copyLog kind tail bread =>
      simp only [at'] at stepped
      exact at' ▸ of_bread (breadStep_panicked running stepped)
  | copyHome kind tail lbuf bread =>
      simp only [at'] at stepped
      exact at' ▸ of_bread (breadStep_panicked running stepped)
  | copyData kind tail lbuf dbuf =>
      simp only [at', Option.some.injEq] at stepped
      subst stepped
      simp [LogSystem.goto, running]
  | copyWrite kind tail lbuf dbuf =>
      simp only [at'] at stepped
      split at stepped <;> cases stepped <;>
        simp [LogSystem.goto, LogSystem.panic, running]
  | copyRelseSource kind tail lbuf dbuf =>
      simp only [at', Option.some.injEq] at stepped
      subst stepped
      simp [LogSystem.goto, running]
  | copyRelseTarget kind tail lbuf dbuf =>
      simp only [at', Option.some.injEq] at stepped
      subst stepped
      exact at' ▸ of_copy running
  | finish =>
      simp only [at', Option.some.injEq] at stepped
      subst stepped
      simp [running]

theorem endOp_panicked (pid : Pid) (running : s.panicked = none) :
    (s.endOp pid).panicked ≠ some .tooBig ∧
      ((s.endOp pid).worker = none → (s.endOp pid).lh = s.lh ∧
        (s.endOp pid).history = s.history) := by
  unfold LogSystem.endOp
  simp only
  split
  · simp [LogSystem.panic]
  · split
    · split <;> simp [LogSystem.goto, running]
    · simp [running]

/-! ## The panic and the number of logged blocks -/

/-- Between commits `log.lh.n` counts the distinct blocks logged. -/
theorem length_loggedBlocks (live : Live g home0 s) (idle : s.worker = none)
    (justified : ∀ b ∈ s.lh, b ∈ s.history.current.map LogUpdate.blockno) :
    (loggedBlocks s).length = s.lh.length := by
  have entries := (live.phase_idle idle).1
  refine List.Perm.length_eq ((List.perm_ext_iff_of_nodup (List.nodup_dedup _)
    entries.nodup).mpr fun b => ?_)
  rw [List.mem_dedup]
  refine ⟨fun mem => ?_, justified b⟩
  obtain ⟨u, inCurrent, rfl⟩ := List.mem_map.mp mem
  exact live.core.updates u inCurrent

theorem logWrite_panicked_iff {pid : Pid} {i : Slot}
    (size : g.size = logsize) (ok : Consistent g home0 s)
    (justified : Justified s) (running : s.panicked = none)
    (inOp : s.InOp pid) :
    (s.logWrite g pid i).panicked = some .tooBig ↔
      ¬ Roomy s (.logWrite pid i) := by
  have live := ok.live running
  have idle := live.no_worker inOp
  have length := length_loggedBlocks live idle (justified running idle)
  unfold LogSystem.logWrite Roomy
  rw [length, size]
  by_cases full : logsize ≤ s.lh.length ∨ logsize - 1 ≤ s.lh.length
  · rw [if_pos full]
    refine iff_of_true rfl ?_
    omega
  · rw [if_neg full]
    refine iff_of_false ?_ ?_
    · split <;> simp [LogSystem.panic, running]
    · omega

/-- One step: what it leaves logged, and when it panics. -/
theorem step_justified {label : LogLabel} (size : g.size = logsize)
    (ok : Consistent g home0 s) (justified : Justified s)
    (stepped : s.step g label = some s') :
    Justified s' ∧ (s'.panicked = some .tooBig ↔ ¬ Roomy s label) := by
  have unchanged (running : s.panicked = none) (roomy : Roomy s label)
      (panicked : s'.panicked ≠ some .tooBig) (worker : s'.worker = s.worker)
      (lh : s'.lh = s.lh) (history : s'.history.current = s.history.current) :
      Justified s' ∧ (s'.panicked = some .tooBig ↔ ¬ Roomy s label) := by
    refine ⟨fun _ idle => ?_, iff_of_false panicked (not_not.mpr roomy)⟩
    rw [lh, history]
    exact justified running (worker.symm.trans idle)
  cases label with
  | crash =>
      cases stepped
      refine ⟨?_, iff_of_false ?_ (by simp [Roomy])⟩
      · intro _ idle
        cases idle
      · simp [LogSystem.boot]
  | beginOp pid =>
      simp only [LogSystem.step, LogSystem.liveStep,
        Option.ite_none_right_eq_some] at stepped
      obtain ⟨running, _, began⟩ := stepped
      unfold LogSystem.beginOp at began
      split at began
      · cases began
      · split at began
        · cases began
        · cases began
          exact unchanged running trivial (by simp [running]) rfl rfl rfl
  | endOp pid =>
      simp only [LogSystem.step, LogSystem.liveStep,
        Option.ite_none_right_eq_some, Option.some.injEq] at stepped
      obtain ⟨running, ⟨_, inOp, _⟩, rfl⟩ := stepped
      obtain ⟨panicked, same⟩ := endOp_panicked pid running
      refine ⟨fun _ idle => ?_, iff_of_false panicked (by simp [Roomy])⟩
      rw [(same idle).1, (same idle).2]
      exact justified running ((ok.live running).no_worker inOp)
  | bget pid blockno =>
      simp only [LogSystem.step, LogSystem.liveStep,
        Option.ite_none_right_eq_some] at stepped
      obtain ⟨running, _, result⟩ := stepped
      split at result <;> cases result
      · exact unchanged running trivial (by simp [running]) rfl rfl rfl
      · exact unchanged running trivial (by simp [LogSystem.panic]) rfl rfl rfl
  | acquire pid i =>
      simp only [LogSystem.step, LogSystem.liveStep,
        Option.ite_none_right_eq_some] at stepped
      obtain ⟨running, _, result⟩ := stepped
      split at result <;> cases result
      exact unchanged running trivial (by simp [running]) rfl rfl rfl
  | fill pid i =>
      simp only [LogSystem.step, LogSystem.liveStep,
        Option.ite_none_right_eq_some] at stepped
      obtain ⟨running, _, result⟩ := stepped
      split at result <;> cases result
      · exact unchanged running trivial (by simp [running]) rfl rfl rfl
      · exact unchanged running trivial (by simp [LogSystem.panic]) rfl rfl rfl
  | modify pid i data =>
      simp only [LogSystem.step, LogSystem.liveStep,
        Option.ite_none_right_eq_some, Option.some.injEq] at stepped
      obtain ⟨running, _, rfl⟩ := stepped
      exact unchanged running trivial (by simp [running]) rfl rfl rfl
  | logWrite pid i =>
      simp only [LogSystem.step, LogSystem.liveStep,
        Option.ite_none_right_eq_some, Option.some.injEq] at stepped
      obtain ⟨running, ⟨_, writes⟩, rfl⟩ := stepped
      refine ⟨?_, logWrite_panicked_iff size ok justified running writes.1⟩
      intro _ _
      have same : (s.logWrite g pid i).lh = s.lh ∧
          (s.logWrite g pid i).history = s.history := by
        unfold LogSystem.logWrite
        split
        · exact ⟨rfl, rfl⟩
        · split <;> exact ⟨rfl, rfl⟩
      rw [same.1, same.2]
      exact justified running ((ok.live running).no_worker writes.1)
  | logAppend pid i =>
      simp only [LogSystem.step, LogSystem.liveStep,
        Option.ite_none_right_eq_some] at stepped
      obtain ⟨running, ⟨_, mem⟩, result⟩ := stepped
      split at result
      · rename_i entry op found
        cases result
        refine ⟨fun _ idle b inLog => ?_, iff_of_false ?_ (by simp [Roomy])⟩
        · change b ∈ (s.history.current ++ [_]).map LogUpdate.blockno
          rw [List.map_append, List.mem_append]
          rcases (mem_absorb _ _ _).mp inLog with old | rfl
          · exact .inl (justified running idle b old)
          · exact .inr (List.mem_singleton.mpr rfl)
        · simp [LogSystem.logAppend, running]
      · cases result
  | brelse pid i =>
      simp only [LogSystem.step, LogSystem.liveStep,
        Option.ite_none_right_eq_some, Option.some.injEq] at stepped
      obtain ⟨running, _, rfl⟩ := stepped
      exact unchanged running trivial (by simp [running]) rfl rfl rfl
  | unref pid i =>
      simp only [LogSystem.step, LogSystem.liveStep,
        Option.ite_none_right_eq_some] at stepped
      obtain ⟨running, result⟩ := stepped
      split at result
      · cases result
        exact unchanged running trivial (by simp [running]) rfl rfl rfl
      · cases result
  | work =>
      simp only [LogSystem.step, LogSystem.liveStep,
        Option.ite_none_right_eq_some] at stepped
      obtain ⟨running, result⟩ := stepped
      split at result
      · rename_i w working
        obtain ⟨panicked, finished⟩ :=
          workStep_panicked running (Option.ite_none_right_eq_some.mp result).2
        refine ⟨fun live idle => ?_, iff_of_false panicked (by simp [Roomy])⟩
        obtain ⟨at', lh⟩ := finished live idle
        have pc := ((ok.live running).workerOk working).pc
        simp only [PcOk, at'] at pc
        rw [lh, pc.1]
        simp
      · cases result

/-! ## What `begin_op` has reserved -/

/-- Between commits the log has room for all that the operations in progress may
still log. -/
structure Admitted (s : LogSystem) : Prop where
  room : s.lh.length + reserved s ≤ logsize
  ops : (s.inOp.map Prod.snd).Nodup
  one : (s.appending.map Prod.fst).Nodup
  within : ∀ entry ∈ s.appending, ∀ op, (entry.1, op) ∈ s.inOp →
    (opBlocks s op (s.io.buf entry.2).blockno).length ≤ maxopblocks

/-- The operations have logged nothing that they may not log. -/
def Reserved (s : LogSystem) : Prop :=
  s.panicked = none → s.worker = none → Admitted s

theorem reserved_le (s : LogSystem) : reserved s ≤ s.inOp.length * maxopblocks := by
  have each : ∀ n ∈ s.inOp.map fun entry =>
      maxopblocks - (loggedBy s.history entry.2).length, n ≤ maxopblocks := by
    intro n mem
    obtain ⟨entry, -, rfl⟩ := List.mem_map.mp mem
    exact Nat.sub_le _ _
  have bound := List.sum_le_card_nsmul _ _ each
  rw [List.length_map] at bound
  exact bound

/-- The step changes neither the log nor the operations nor the buffers that they
have. -/
theorem Admitted.of_io (admitted : Admitted s) {io : IoState} {unlogged : List Slot}
    (writes : ∀ entry ∈ s.appending, s.Writes g entry.1 entry.2)
    (same : ∀ j, (s.io.buf j).owner ≠ none → (io.buf j).blockno = (s.io.buf j).blockno) :
    Admitted { s with io := io, unlogged := unlogged } := by
  refine ⟨admitted.room, admitted.ops, admitted.one, ?_⟩
  intro entry mem op inOp
  have held : (s.io.buf entry.2).owner ≠ none := by
    rw [(writes entry mem).2.1]
    exact Option.some_ne_none _
  have bound := admitted.within entry mem op inOp
  rwa [← same entry.2 held] at bound

/-- `begin_op` reserves `MAXOPBLOCKS` blocks. -/
theorem Admitted.beginOp {pid : Pid} (admitted : Admitted s) (ok : Consistent g home0 s)
    (running : s.panicked = none) (new : ¬s.InOp pid) (began : s.beginOp pid = some s') :
    Admitted s' := by
  have core := (ok.live running).core
  unfold LogSystem.beginOp at began
  split at began
  · cases began
  · split at began
    · cases began
    · next room =>
      cases began
      have fresh (op : Nat) (mem : op ∈ s.inOp.map Prod.snd) : op ≠ s.history.nextOp := by
        obtain ⟨entry, inOp, rfl⟩ := List.mem_map.mp mem
        exact Nat.ne_of_lt (ok.history.groupFresh _ (core.group entry inOp))
      refine ⟨?_, ?_, admitted.one, ?_⟩
      · rw [core.outstanding] at room
        have bound := reserved_le s
        change s.lh.length + (_ + reserved s) ≤ logsize
        have one := Nat.sub_le maxopblocks (loggedBy s.history s.history.nextOp).length
        change s.lh.length + (maxopblocks - (loggedBy s.history s.history.nextOp).length +
          reserved s) ≤ logsize
        simp only [maxopblocks, logsize] at *
        omega
      · refine List.nodup_cons.mpr ⟨?_, admitted.ops⟩
        exact fun mem => fresh _ mem rfl
      · intro entry mem op inOp
        rcases List.mem_cons.mp inOp with same | old
        · cases same
          exact absurd (core.appending entry mem).1 new
        · exact admitted.within entry mem op old

/-- An operation logs a block: its own reservation pays for a new entry. -/
theorem Admitted.logAppend {pid : Pid} {op : Nat} {i : Slot} (admitted : Admitted s)
    (ok : Consistent g home0 s) (running : s.panicked = none) (mem : (pid, i) ∈ s.appending)
    (inOp : (pid, op) ∈ s.inOp) : Admitted (s.logAppend pid op i) := by
  have core := (ok.live running).core
  have blockno (j : Slot) : ((s.logAppend pid op i).io.buf j).blockno = (s.io.buf j).blockno := by
    by_cases here : j = i <;> simp [LogSystem.logAppend, IoState.setDirty, here]
  have made (op' : Nat) : updatesOf op' (s.logAppend pid op i).history.made =
      updatesOf op' s.history.made ++
        if op = op' then [⟨op, (s.io.buf i).blockno, (s.io.buf i).data⟩] else [] := by
    change updatesOf op' (s.history.made ++ [_]) = _
    rw [LogHistory.updatesOf_append]
    congr 1
    by_cases same : op = op' <;> simp [updatesOf, same]
  have others {op' : Nat} (other : op ≠ op') :
      updatesOf op' (s.logAppend pid op i).history.made = updatesOf op' s.history.made := by
    rw [made, if_neg other, List.append_nil]
  have own : (loggedBy (s.logAppend pid op i).history op).length =
      (opBlocks s op (s.io.buf i).blockno).length := by
    unfold loggedBy opBlocks
    rw [made, if_pos rfl, List.map_append]
    exact (List.perm_append_singleton _ _).dedup.length_eq
  have grows (op' : Nat) : (loggedBy s.history op').length ≤
      (loggedBy (s.logAppend pid op i).history op').length := by
    by_cases same : op = op'
    · subst same
      rw [own]
      unfold loggedBy opBlocks
      by_cases old : (s.io.buf i).blockno ∈ (updatesOf op s.history.made).map LogUpdate.blockno
      · rw [List.dedup_cons_of_mem old]
      · rw [List.dedup_cons_of_notMem old]
        exact Nat.le_succ _
    · unfold loggedBy
      rw [others same]
  refine ⟨?_, admitted.ops, ?_, ?_⟩
  · by_cases old : (s.io.buf i).blockno ∈ s.lh
    · have fewer : reserved (s.logAppend pid op i) ≤ reserved s :=
        List.sum_le_sum fun entry _ => Nat.sub_le_sub_left (grows entry.2) maxopblocks
      change (LogSystem.absorb s.lh (s.io.buf i).blockno).length + _ ≤ logsize
      rw [LogSystem.absorb, if_pos old]
      exact (Nat.add_le_add_left fewer _).trans admitted.room
    · -- The block is new to the log, so it is new to the operation.
      have new : (s.io.buf i).blockno ∉ (updatesOf op s.history.made).map LogUpdate.blockno := by
        rw [← (ok.history.group op (core.group _ inOp)).2]
        intro inCurrent
        obtain ⟨u, isUpdate, same⟩ := List.mem_map.mp inCurrent
        exact old (same ▸ core.updates u (List.mem_of_mem_filter isUpdate))
      have paid : reserved (s.logAppend pid op i) < reserved s := by
        refine List.sum_lt_sum _ _
          (fun entry _ => Nat.sub_le_sub_left (grows entry.2) maxopblocks) ⟨(pid, op), inOp, ?_⟩
        have bound := admitted.within _ mem op inOp
        have more : (opBlocks s op (s.io.buf i).blockno).length =
            (loggedBy s.history op).length + 1 := by
          unfold loggedBy opBlocks
          rw [List.dedup_cons_of_notMem new, List.length_cons]
        change maxopblocks - (loggedBy (s.logAppend pid op i).history op).length <
          maxopblocks - (loggedBy s.history op).length
        rw [own]
        change (opBlocks s op (s.io.buf i).blockno).length ≤ maxopblocks at bound
        omega
      have room := admitted.room
      change (LogSystem.absorb s.lh (s.io.buf i).blockno).length + _ ≤ logsize
      rw [LogSystem.absorb, if_neg old, List.length_append, List.length_singleton]
      omega
  · exact admitted.one.sublist (List.erase_sublist.map _)
  · intro entry left op' inOp'
    have order := (List.perm_cons_erase mem).map Prod.fst
    have apart := (List.nodup_cons.mp (order.nodup_iff.mp admitted.one)).1
    have other : op ≠ op' := by
      rintro rfl
      have same := List.inj_on_of_nodup_map admitted.ops inOp inOp' rfl
      exact apart (List.mem_map.mpr ⟨entry, left, (congrArg Prod.fst same).symm⟩)
    have bound := admitted.within entry (List.mem_of_mem_erase left) op' inOp'
    unfold opBlocks at bound ⊢
    rwa [others other, blockno]

/-- `end_op` gives the rest of a reservation back. -/
theorem Reserved.endOp {pid : Pid} (holds : Reserved s) (running : s.panicked = none)
    (idle : s.worker = none) : Reserved (s.endOp pid) := by
  have admitted := holds running idle
  have fewer : (s.inOp.eraseP fun entry => entry.1 = pid).Sublist s.inOp :=
    List.eraseP_sublist
  unfold LogSystem.endOp
  simp only
  split
  · exact nofun
  · split
    · split <;> exact nofun
    · intro _ _
      refine ⟨?_, admitted.ops.sublist (fewer.map _), admitted.one, ?_⟩
      · have less := (fewer.map fun entry =>
          maxopblocks - (loggedBy s.history entry.2).length).sum_le_sum fun _ _ => Nat.zero_le _
        exact (Nat.add_le_add_left less _).trans admitted.room
      · exact fun entry mem op inOp => admitted.within entry mem op (fewer.mem inOp)

/-- Every step keeps what is reserved. -/
theorem step_reserved {label : LogLabel} (ok : Consistent g home0 s) (holds : Reserved s)
    (within : WithinMaxopblocks s label) (stepped : s.step g label = some s') :
    Reserved s' := by
  have onBuffers (running : s.panicked = none) {io : IoState} {unlogged : List Slot}
      (same : ∀ j, (s.io.buf j).owner ≠ none → (io.buf j).blockno = (s.io.buf j).blockno) :
      Reserved { s with io := io, unlogged := unlogged } :=
    fun _ idle => (holds running idle).of_io (ok.live running).core.appending same
  have panics (message : LogPanic) : Reserved (s.panic message) := nofun
  cases label with
  | crash =>
      cases stepped
      intro _ idle
      cases idle
  | beginOp pid =>
      simp only [LogSystem.step, LogSystem.liveStep,
        Option.ite_none_right_eq_some] at stepped
      obtain ⟨running, ⟨ready, new⟩, began⟩ := stepped
      intro _ idle
      have before : s.worker = none := by
        unfold LogSystem.beginOp at began
        split at began
        · cases began
        · split at began <;> cases began
          exact idle
      exact (holds running before).beginOp ok running new began
  | endOp pid =>
      simp only [LogSystem.step, LogSystem.liveStep,
        Option.ite_none_right_eq_some, Option.some.injEq] at stepped
      obtain ⟨running, ⟨_, inOp, _⟩, rfl⟩ := stepped
      exact holds.endOp running ((ok.live running).no_worker inOp)
  | bget pid blockno =>
      simp only [LogSystem.step, LogSystem.liveStep,
        Option.ite_none_right_eq_some] at stepped
      obtain ⟨running, _, result⟩ := stepped
      split at result
      · next got =>
        cases result
        refine onBuffers running fun j held => ?_
        obtain ⟨q, isOwner⟩ := Option.ne_none_iff_exists'.mp held
        exact (((ok.live running).core.io.keeps_of_bget got q).owned j isOwner).2.2.1
      · cases result
        exact panics _
  | acquire pid i =>
      simp only [LogSystem.step, LogSystem.liveStep,
        Option.ite_none_right_eq_some] at stepped
      obtain ⟨running, _, result⟩ := stepped
      split at result
      · next acquired =>
        cases result
        obtain ⟨-, -, -, -, same, changed⟩ := IoState.acquire_eq_some acquired
        refine onBuffers running fun j _ => ?_
        by_cases here : j = i
        · rw [here, changed]
        · rw [same j here]
      · cases result
  | fill pid i =>
      simp only [LogSystem.step, LogSystem.liveStep,
        Option.ite_none_right_eq_some] at stepped
      obtain ⟨running, _, result⟩ := stepped
      split at result
      · next filled =>
        cases result
        obtain ⟨-, -, -, same, changed⟩ := IoState.fill_eq_some filled
        refine onBuffers running fun j _ => ?_
        by_cases here : j = i
        · rw [here, changed]
        · rw [same j here]
      · cases result
        exact panics _
  | modify pid i data =>
      simp only [LogSystem.step, LogSystem.liveStep,
        Option.ite_none_right_eq_some, Option.some.injEq] at stepped
      obtain ⟨running, _, rfl⟩ := stepped
      refine onBuffers running fun j _ => ?_
      by_cases here : j = i <;> simp [IoState.setData, here]
  | logWrite pid i =>
      simp only [LogSystem.step, LogSystem.liveStep,
        Option.ite_none_right_eq_some, Option.some.injEq] at stepped
      obtain ⟨running, ⟨ready, _⟩, rfl⟩ := stepped
      unfold LogSystem.logWrite
      split
      · exact panics _
      · split
        · exact panics _
        · intro _ idle
          have admitted := holds running idle
          refine ⟨admitted.room, admitted.ops, ?_, ?_⟩
          · exact List.nodup_cons.mpr ⟨ready.2.2.1, admitted.one⟩
          · intro entry mem op inOp
            rcases List.mem_cons.mp mem with rfl | old
            · exact within (pid, op) inOp rfl
            · exact admitted.within entry old op inOp
  | logAppend pid i =>
      simp only [LogSystem.step, LogSystem.liveStep,
        Option.ite_none_right_eq_some] at stepped
      obtain ⟨running, ⟨_, mem⟩, result⟩ := stepped
      split at result
      · next entry op found =>
        cases result
        have same : entry = pid := by simpa using List.find?_some found
        subst same
        intro _ idle
        exact (holds running idle).logAppend ok running mem (List.mem_of_find?_eq_some found)
      · cases result
  | brelse pid i =>
      simp only [LogSystem.step, LogSystem.liveStep,
        Option.ite_none_right_eq_some, Option.some.injEq] at stepped
      obtain ⟨running, _, rfl⟩ := stepped
      obtain ⟨same, changed⟩ := s.io.brelse_buf pid i
      refine onBuffers running fun j _ => ?_
      by_cases here : j = i
      · rw [here, changed]
      · rw [same j here]
  | unref pid i =>
      simp only [LogSystem.step, LogSystem.liveStep,
        Option.ite_none_right_eq_some] at stepped
      obtain ⟨running, result⟩ := stepped
      split at result
      · next released =>
        cases result
        obtain ⟨-, -, -, -, same, changed⟩ := IoState.unref_eq_some released
        refine onBuffers running fun j _ => ?_
        by_cases here : j = i
        · rw [here, changed]
        · rw [same j here]
      · cases result
  | work =>
      simp only [LogSystem.step, LogSystem.liveStep,
        Option.ite_none_right_eq_some] at stepped
      obtain ⟨running, result⟩ := stepped
      split at result
      · next w working =>
        intro live idle
        have result := (Option.ite_none_right_eq_some.mp result).2
        obtain ⟨at', -⟩ := (workStep_panicked running result).2 live idle
        have worker := (ok.live running).workerOk working
        have pc := worker.pc
        simp only [PcOk, at'] at pc
        simp only [LogSystem.workStep, at', Option.some.injEq] at result
        subst result
        -- The commit has ended, so no operation is in progress.
        have none' : s.inOp = [] := worker.inOp
        have nothing : s.appending = [] := worker.appending
        refine ⟨?_, ?_, ?_, ?_⟩ <;> simp [reserved, none', nothing, pc.1]
      · cases result

/-- Two blocks that are left leave room for two more. -/
theorem spare_iff_roomy {label : LogLabel} (ok : Consistent g home0 s) (justified : Justified s)
    (holds : Reserved s) (stepped : s.step g label = some s') :
    Spare s label ↔ Roomy s label := by
  cases label with
  | logWrite pid i =>
      simp only [LogSystem.step, LogSystem.liveStep,
        Option.ite_none_right_eq_some, Option.some.injEq] at stepped
      obtain ⟨running, ⟨_, writes⟩, -⟩ := stepped
      have live := ok.live running
      have idle := live.no_worker writes.1
      have length := length_loggedBlocks live idle (justified running idle)
      have room := (holds running idle).room
      rw [← length] at room
      unfold Spare Roomy
      refine or_iff_right_of_imp fun spare => ?_
      omega
  | _ => exact iff_of_true trivial trivial

/-- In every run from a recoverable image, with the log as `mkfs` lays it out,
whose operations stay within `MAXOPBLOCKS`, the log has room between commits for
all that the operations in progress may still log; and "too big a transaction"
is never reached exactly when each `log_write` is called while two of these
blocks are left or fewer than `LOGSIZE - 1` distinct blocks are logged. -/
theorem tooBig_unreached_iff {disk : Disk} {labels : List LogLabel}
    (size : g.size = logsize) (image : DiskOk g disk home0)
    (within : RunMeets (LogSystem.step g) WithinMaxopblocks (LogSystem.boot disk .empty) labels)
    (ran : run (LogSystem.step g) (LogSystem.boot disk .empty) labels = some s) :
    (s.panicked = none → s.worker = none → s.lh.length + reserved s ≤ logsize) ∧
      ((∀ first middle, first <+: labels →
          run (LogSystem.step g) (LogSystem.boot disk .empty) first =
            some middle →
          middle.panicked ≠ some .tooBig) ↔
        RunMeets (LogSystem.step g) Spare (LogSystem.boot disk .empty) labels) := by
  have start : Consistent g home0 (LogSystem.boot disk .empty) ∧
      Justified (LogSystem.boot disk .empty) ∧ Reserved (LogSystem.boot disk .empty) :=
    ⟨boot_consistent image LogHistory.Ok.empty rfl, nofun, nofun⟩
  have preserved {s next : LogSystem} {label : LogLabel}
      (holds : Consistent g home0 s ∧ Justified s ∧ Reserved s)
      (within : WithinMaxopblocks s label) (stepped : s.step g label = some next) :
      Consistent g home0 next ∧ Justified next ∧ Reserved next :=
    ⟨step_consistent holds.1 stepped, (step_justified size holds.1 holds.2.1 stepped).1,
      step_reserved holds.1 holds.2.2 within stepped⟩
  constructor
  · intro running idle
    exact ((invariant_of_runMeets preserved start within ran).2.2 running idle).room
  · refine always_iff_runMeets (fun holds within _ stepped => preserved holds within stepped)
      ?_ start nofun within ran
    intro s label next holds _ stepped
    have panics := (step_justified size holds.1 holds.2.1 stepped).2
    rw [spare_iff_roomy holds.1 holds.2.1 holds.2.2 stepped, Ne, panics, Classical.not_not]

/-- One operation logs one block from a fresh buffer. -/
def logOne (pid : Pid) (blockno : Nat) (i : Slot) : List LogLabel :=
  [.bget pid blockno, .acquire pid i, .fill pid i, .modify pid i fun _ => 1,
    .logWrite pid i, .logAppend pid i, .brelse pid i, .unref pid i]

local instance threeFullOps_neZero : NeZero 30 := ⟨by decide⟩

/-- Three operations are admitted and log ten distinct blocks each. -/
def threeFullOps : List LogLabel :=
  recoverEmpty ++ [LogLabel.beginOp 5, .beginOp 6, .beginOp 7] ++
    ((List.finRange 29).flatMap fun i =>
      logOne (5 + i.val / 10) (60 + i.val) i.succ) ++
    [LogLabel.bget 7 89, .acquire 7 0, .fill 7 0, .logWrite 7 0]

/-- The thirtieth distinct block meets the panic, although each operation
stays within `MAXOPBLOCKS`. -/
theorem tooBig_after_three_full_ops :
    RunMeets (LogSystem.step mkfsGeometry) WithinMaxopblocks
        (LogSystem.boot blankDisk .empty) threeFullOps ∧
      ∃ s, run (LogSystem.step mkfsGeometry) (LogSystem.boot blankDisk .empty)
          threeFullOps = some s ∧ s.panicked = some .tooBig := by
  refine ⟨by decide +kernel, ?_⟩
  have panicked : ((run (LogSystem.step mkfsGeometry)
      (LogSystem.boot blankDisk .empty) threeFullOps).any fun s =>
        s.panicked = some .tooBig) = true := by
    decide +kernel
  obtain ⟨s, ran, tooBig⟩ := (Option.any_eq_true _ _).mp panicked
  exact ⟨s, ran, by simpa using tooBig⟩

/-- Two operations are admitted and log ten distinct blocks each. -/
def twoFullOps : List LogLabel :=
  recoverEmpty ++ [LogLabel.beginOp 5, .beginOp 6] ++
    ((List.finRange 29).take 20).flatMap fun i => logOne (5 + i.val / 10) (60 + i.val) i.succ

theorem twoFullOps_tooBig_unreached :
    ∃ s, run (LogSystem.step mkfsGeometry) (LogSystem.boot blankDisk .empty) twoFullOps =
        some s ∧ s.lh.length = 20 ∧ s.lh.length + reserved s ≤ logsize ∧
      ∀ first middle, first <+: twoFullOps →
        run (LogSystem.step mkfsGeometry) (LogSystem.boot blankDisk .empty) first =
          some middle → middle.panicked ≠ some .tooBig := by
  have ran : ((run (LogSystem.step mkfsGeometry) (LogSystem.boot blankDisk .empty)
      twoFullOps).any fun s => s.panicked = none ∧ s.worker.isNone ∧ s.lh.length = 20) =
        true := by
    decide +kernel
  obtain ⟨s, ran, holds⟩ := (Option.any_eq_true _ _).mp ran
  simp only [decide_eq_true_eq, Option.isNone_iff_eq_none] at holds
  obtain ⟨running, idle, length⟩ := holds
  obtain ⟨room, unreached⟩ := tooBig_unreached_iff rfl blankDisk_ok (by decide +kernel) ran
  exact ⟨s, ran, length, room running idle, unreached.mpr (by decide +kernel)⟩

end Xv6
