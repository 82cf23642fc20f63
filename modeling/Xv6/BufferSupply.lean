import Mathlib.Algebra.Order.BigOperators.Group.Finset
import Xv6.LogAdmission

/-!
# Enough buffers

The cache has `NBUF` buffers, as many as three operations may log blocks, and `bget`
panics when all of them are referenced or pinned by the log.  What `begin_op` has
reserved and not yet used is left over for the buffers that processes hold or wait for,
two for each.  But nothing limits the number of these processes, and the commit has
buffers of its own.
-/

namespace Xv6

open LabelledRuns

local instance usedBlocks_lawfulBEq : LawfulBEq Slot := inferInstance

/-- The blocks that processes hold, wait for or are about to give back, and those that
the log pins. -/
def usedBlocks (s : LogSystem) : Finset Nat :=
  ((Finset.univ.filter fun i : Slot =>
    (s.io.buf i).owner ≠ none ∨ i ∈ s.io.referring.map Prod.snd).image fun i =>
      (s.io.buf i).blockno) ∪ s.pinned.toFinset

/-- For each buffer that is held, waited for or about to be given back, the process
that does. -/
def handles (s : LogSystem) : List Pid :=
  (List.finRange nbuf).filterMap (fun i => (s.io.buf i).owner) ++ s.io.referring.map Prod.fst

/-- The processes that have a buffer, wait for one or are about to give one back. -/
def holders (s : LogSystem) : Finset Pid := (handles s).toFinset

/-- No process has more than two buffers, those it waits for and those it is about to
give back included. -/
def AtMostTwo (s : LogSystem) : Prop :=
  ∀ pid ∈ handles s, (handles s).count pid ≤ 2

instance (s : LogSystem) : Decidable (AtMostTwo s) :=
  inferInstanceAs (Decidable (∀ pid ∈ handles s, _))

/-- The block that the worker passes to `bget` in its next step. -/
def LogPc.requested (g : LogGeometry) (lh : List Nat) : LogPc → Option Nat
  | .head _ .get => some g.start
  | .copyLog _ tail .get => some (g.logBlock tail)
  | .copyHome _ tail _ .get => some (lh.getD tail 0)
  | _ => none

/-- The block that a step passes to `bget`. -/
def requested (g : LogGeometry) (s : LogSystem) : LogLabel → Option Nat
  | .bget _ blockno => some blockno
  | .work => s.worker.bind fun w => w.pc.requested g s.lh
  | _ => none

/-- A block that is asked for is in use already, or fewer than `NBUF` blocks are. -/
def Supplied (g : LogGeometry) (s : LogSystem) (label : LogLabel) : Prop :=
  ∀ b ∈ requested g s label, b ∈ usedBlocks s ∨ (usedBlocks s).card < nbuf

/-- A block that is asked for is in use already, or the operations in progress have more
blocks left than the processes at work can have buffers, or fewer than `NBUF` blocks are
in use. -/
def Stocked (g : LogGeometry) (s : LogSystem) (label : LogLabel) : Prop :=
  ∀ b ∈ requested g s label, b ∈ usedBlocks s ∨ 2 * (holders s).card < reserved s ∨
    (usedBlocks s).card < nbuf

instance (g : LogGeometry) (s : LogSystem) (label : LogLabel) :
    Decidable (Stocked g s label) :=
  match asked : requested g s label with
  | none => isTrue fun b isRequest => nomatch asked.symm.trans isRequest
  | some b => decidable_of_iff (b ∈ usedBlocks s ∨ 2 * (holders s).card < reserved s ∨
      (usedBlocks s).card < nbuf) (by simp [Stocked, asked])

variable {g : LogGeometry} {home0 : Disk} {s s' : LogSystem} {w : LogWorker} {b : Nat}
  {pid : Pid}

/-- The buffer is referenced or pinned. -/
def Busy (io : IoState) (i : Slot) : Prop :=
  (io.buf i).refcnt ≠ 0 ∨ (io.buf i).dirty = true

instance (io : IoState) : DecidablePred (Busy io) :=
  fun _ => inferInstanceAs (Decidable (_ ∨ _))

/-- With an idle buffer, fewer than `NBUF` are busy. -/
theorem card_busy_lt {io : IoState} {i : Slot} (idle : ¬Busy io i) :
    (Finset.univ.filter (Busy io)).card < nbuf := by
  have fewer : Finset.univ.filter (Busy io) ⊂ Finset.univ :=
    Finset.filter_ssubset.mpr ⟨i, Finset.mem_univ i, idle⟩
  exact (Finset.card_lt_card fewer).trans_eq (Finset.card_fin nbuf)

theorem refcnt_ne_zero_iff {io : IoState} {loose : Slot → Prop} {pinned : List Nat}
    (ok : IoOk io loose pinned) (i : Slot) :
    (io.buf i).refcnt ≠ 0 ↔ (io.buf i).owner ≠ none ∨ i ∈ io.referring.map Prod.snd := by
  rw [(ok.slot i).refcnt, IoState.refs, ← List.count_pos_iff]
  cases (io.buf i).owner with
  | none => simp [Nat.pos_iff_ne_zero]
  | some pid => simp

/-- The blocks in use are those of the busy buffers. -/
theorem mem_usedBlocks (live : Live g home0 s) :
    b ∈ usedBlocks s ↔ ∃ i, Busy s.io i ∧ (s.io.buf i).blockno = b := by
  have ok := live.core.io
  rw [usedBlocks, Finset.mem_union, Finset.mem_image, List.mem_toFinset]
  constructor
  · rintro (⟨i, referenced, same⟩ | isPinned)
    · have used := (refcnt_ne_zero_iff ok i).mpr (Finset.mem_filter.mp referenced).2
      exact ⟨i, .inl used, same⟩
    · obtain ⟨i, dirty, same⟩ := ok.cached b isPinned
      exact ⟨i, .inr dirty, same⟩
  · rintro ⟨i, used | dirty, same⟩
    · refine .inl ⟨i, Finset.mem_filter.mpr ⟨Finset.mem_univ i, ?_⟩, same⟩
      exact (refcnt_ne_zero_iff ok i).mp used
    · rw [← same]
      exact .inr ((ok.slot i).dirty_iff.mp dirty).2

theorem dev_of_busy (live : Live g home0 s) {i : Slot} (busy : Busy s.io i) :
    (s.io.buf i).dev = rootdev :=
  busy.elim (fun used => live.core.io.dev_of_refcnt_pos (Nat.pos_of_ne_zero used))
    live.core.io.dev_of_dirty

/-- The blocks in use are as many as the busy buffers. -/
theorem card_usedBlocks (live : Live g home0 s) :
    (usedBlocks s).card = (Finset.univ.filter (Busy s.io)).card := by
  have image : usedBlocks s = (Finset.univ.filter (Busy s.io)).image fun i =>
      (s.io.buf i).blockno := by
    ext b
    rw [mem_usedBlocks live, Finset.mem_image]
    refine exists_congr fun i => and_congr_left fun _ => ?_
    rw [Finset.mem_filter]
    exact (and_iff_right (Finset.mem_univ i)).symm
  rw [image, Finset.card_image_of_injOn]
  intro i busy j other same
  have here := dev_of_busy live (Finset.mem_filter.mp busy).2
  have there := dev_of_busy live (Finset.mem_filter.mp other).2
  exact live.core.io.unique i j here there same

/-- There is no buffer for a block exactly when `NBUF` others are in use. -/
theorem bget_eq_none_iff (pid : Nat) (live : Live g home0 s) :
    s.io.bget pid b = none ↔ ¬(b ∈ usedBlocks s ∨ (usedBlocks s).card < nbuf) := by
  rw [card_usedBlocks live, mem_usedBlocks live]
  have ok := live.core.io
  have order := ok.mem_order
  unfold IoState.bget Bcache.bget
  cases found : s.io.cache.lookup rootdev b with
  | some i =>
      obtain ⟨_, same⟩ := Bcache.lookup_eq_some found
      refine iff_of_false nofun (not_not.mpr ?_)
      by_cases busy : Busy s.io i
      · exact .inl ⟨i, busy, same⟩
      · exact .inr (card_busy_lt busy)
  | none =>
      have absent : ¬∃ i, Busy s.io i ∧ (s.io.buf i).blockno = b := by
        rintro ⟨i, busy, same⟩
        exact Bcache.lookup_eq_none order found i (dev_of_busy live busy) same
      cases picked : s.io.cache.victim with
      | some i =>
          obtain ⟨free, clean⟩ := Bcache.victim_eq_some picked
          have idle : ¬Busy s.io i := by
            rintro (used | dirty)
            · exact used free
            · exact absurd dirty (by rw [show (s.io.buf i).dirty = false from clean]; decide)
          exact iff_of_false nofun (not_not.mpr (.inr (card_busy_lt idle)))
      | none =>
          refine iff_of_true rfl ?_
          rw [not_or]
          refine ⟨absent, ?_⟩
          have all : Finset.univ.filter (Busy s.io) = Finset.univ := by
            refine Finset.filter_true_of_mem fun i _ => ?_
            have busy := List.find?_eq_none.mp picked i (List.mem_reverse.mpr (order i))
            unfold Busy
            by_contra idle
            rw [not_or, not_not, Bool.not_eq_true] at idle
            exact busy (by simp only [IoState.buf] at idle; simp [idle])
          rw [all, Finset.card_fin]
          exact Nat.lt_irrefl nbuf

/-! ## Steps -/

theorem supplied_of_none {label : LogLabel} (none : requested g s label = none) :
    Supplied g s label := by
  rintro b isRequest
  rw [none] at isRequest
  cases isRequest

theorem supplied_of_some {label : LogLabel} (some : requested g s label = .some b) :
    Supplied g s label ↔ b ∈ usedBlocks s ∨ (usedBlocks s).card < nbuf := by
  unfold Supplied
  rw [some]
  simp

/-- The worker's `bread` panics in `bget` only. -/
theorem breadStep_noBuffers {again : BreadPc → LogPc} {done : Slot → LogPc}
    {bread : BreadPc} (live : Live g home0 s) (running : s.panicked = none)
    (stepped : s.breadStep w b again done bread = some s') :
    s'.panicked = some .noBuffers ↔
      bread = .get ∧ ¬(b ∈ usedBlocks s ∨ (usedBlocks s).card < nbuf) := by
  cases bread with
  | get =>
      rw [← bget_eq_none_iff w.pid live]
      simp only [LogSystem.breadStep] at stepped
      split at stepped <;> cases stepped
      · rename_i got
        rw [got]
        simp [LogSystem.goto, running]
      · rename_i none
        rw [none]
        simp [LogSystem.panic]
  | lock i =>
      simp only [LogSystem.breadStep] at stepped
      split at stepped <;> cases stepped
      simp [LogSystem.goto, running]
  | fill i =>
      simp only [LogSystem.breadStep] at stepped
      split at stepped
      · cases stepped
        simp [LogSystem.goto, running]
      · split at stepped <;> cases stepped <;>
          simp [LogSystem.goto, LogSystem.panic, running]

/-- A `bread` of the worker. -/
theorem work_noBuffers {again : BreadPc → LogPc} {done : Slot → LogPc} {bread : BreadPc}
    (live : Live g home0 s) (running : s.panicked = none)
    (stepped : s.breadStep w b again done bread = some s')
    (request : requested g s .work = match bread with | .get => some b | _ => none) :
    s'.panicked = some .noBuffers ↔ ¬Supplied g s .work := by
  rw [breadStep_noBuffers live running stepped]
  cases bread with
  | get =>
      rw [supplied_of_some request]
      exact and_iff_right rfl
  | lock i =>
      exact iff_of_false (fun both => nomatch both.1) (not_not.mpr (supplied_of_none request))
  | fill i =>
      exact iff_of_false (fun both => nomatch both.1) (not_not.mpr (supplied_of_none request))

/-- `commit` and `recover_from_log` panic in `bget` where the block that they ask for
is not supplied. -/
theorem workStep_noBuffers (live : Live g home0 s) (running : s.panicked = none)
    (working : s.worker = some w) (stepped : s.workStep g w = some s') :
    s'.panicked = some .noBuffers ↔ ¬Supplied g s .work := by
  have request : requested g s .work = w.pc.requested g s.lh := by
    rw [requested, working, Option.bind_some]
  have quiet (none : w.pc.requested g s.lh = none) (fine : s'.panicked ≠ some .noBuffers) :
      s'.panicked = some .noBuffers ↔ ¬Supplied g s .work :=
    iff_of_false fine (not_not.mpr (supplied_of_none (request.trans none)))
  have tested {s : LogSystem} {kind : CopyKind} {tail : Nat} (running : s.panicked = none) :
      (s.copyTest w kind tail).panicked ≠ some .noBuffers := by
    rw [(copyTest_panicked running).1]
    exact nofun
  unfold LogSystem.workStep at stepped
  cases at' : w.pc with
  | head kind bread =>
      simp only [at'] at stepped
      refine work_noBuffers live running stepped ?_
      rw [request, at']
      cases bread <;> rfl
  | headData kind i =>
      refine quiet (by rw [at']; rfl) ?_
      cases kind <;> simp only [at', Option.some.injEq] at stepped <;>
        subst stepped <;> simp [LogSystem.goto, running]
  | headWrite kind i =>
      refine quiet (by rw [at']; rfl) ?_
      simp only [at'] at stepped
      split at stepped <;> cases stepped <;>
        simp [LogSystem.goto, LogSystem.panic, running]
  | headRelse kind i =>
      refine quiet (by rw [at']; rfl) ?_
      cases kind <;> simp only [at', Option.some.injEq] at stepped <;> subst stepped
      · exact tested running
      · exact tested running
      · simp [LogSystem.goto, running]
  | copyLog kind tail bread =>
      simp only [at'] at stepped
      refine work_noBuffers live running stepped ?_
      rw [request, at']
      cases bread <;> rfl
  | copyHome kind tail lbuf bread =>
      simp only [at'] at stepped
      refine work_noBuffers live running stepped ?_
      rw [request, at']
      cases bread <;> rfl
  | copyData kind tail lbuf dbuf =>
      refine quiet (by rw [at']; rfl) ?_
      simp only [at', Option.some.injEq] at stepped
      subst stepped
      simp [LogSystem.goto, running]
  | copyWrite kind tail lbuf dbuf =>
      refine quiet (by rw [at']; rfl) ?_
      simp only [at'] at stepped
      split at stepped <;> cases stepped <;>
        simp [LogSystem.goto, LogSystem.panic, running]
  | copyRelseSource kind tail lbuf dbuf =>
      refine quiet (by rw [at']; rfl) ?_
      simp only [at', Option.some.injEq] at stepped
      subst stepped
      simp [LogSystem.goto, running]
  | copyRelseTarget kind tail lbuf dbuf =>
      refine quiet (by rw [at']; rfl) ?_
      simp only [at', Option.some.injEq] at stepped
      subst stepped
      exact tested running
  | finish =>
      refine quiet (by rw [at']; rfl) ?_
      simp only [at', Option.some.injEq] at stepped
      subst stepped
      simp [running]

/-- A step panics in `bget` where the block that it asks for is not supplied. -/
theorem step_noBuffers {label : LogLabel} (ok : Consistent g home0 s)
    (stepped : s.step g label = some s') :
    s'.panicked = some .noBuffers ↔ ¬Supplied g s label := by
  have quiet {label : LogLabel} (none : requested g s label = none)
      (fine : s'.panicked ≠ some .noBuffers) :
      s'.panicked = some .noBuffers ↔ ¬Supplied g s label :=
    iff_of_false fine (not_not.mpr (supplied_of_none none))
  cases label with
  | crash =>
      cases stepped
      exact quiet rfl (by simp [LogSystem.boot])
  | beginOp pid =>
      simp only [LogSystem.step, LogSystem.liveStep,
        Option.ite_none_right_eq_some] at stepped
      obtain ⟨running, _, began⟩ := stepped
      unfold LogSystem.beginOp at began
      split at began
      · cases began
      · split at began
        · cases began
        · cases began
          exact quiet rfl (by simp [running])
  | endOp pid =>
      simp only [LogSystem.step, LogSystem.liveStep,
        Option.ite_none_right_eq_some, Option.some.injEq] at stepped
      obtain ⟨running, _, rfl⟩ := stepped
      refine quiet rfl ?_
      unfold LogSystem.endOp
      simp only
      split
      · simp [LogSystem.panic]
      · split
        · split <;> simp [LogSystem.goto, running]
        · simp [running]
  | bget pid blockno =>
      simp only [LogSystem.step, LogSystem.liveStep,
        Option.ite_none_right_eq_some] at stepped
      obtain ⟨running, _, result⟩ := stepped
      rw [supplied_of_some rfl, ← bget_eq_none_iff pid (ok.live running)]
      split at result <;> cases result
      · rename_i got
        rw [got]
        simp [running]
      · rename_i none
        rw [none]
        simp [LogSystem.panic]
  | acquire pid i =>
      simp only [LogSystem.step, LogSystem.liveStep,
        Option.ite_none_right_eq_some] at stepped
      obtain ⟨running, _, result⟩ := stepped
      split at result <;> cases result
      exact quiet rfl (by simp [running])
  | fill pid i =>
      simp only [LogSystem.step, LogSystem.liveStep,
        Option.ite_none_right_eq_some] at stepped
      obtain ⟨running, _, result⟩ := stepped
      split at result <;> cases result
      · exact quiet rfl (by simp [running])
      · exact quiet rfl (by simp [LogSystem.panic])
  | modify pid i data =>
      simp only [LogSystem.step, LogSystem.liveStep,
        Option.ite_none_right_eq_some, Option.some.injEq] at stepped
      obtain ⟨running, _, rfl⟩ := stepped
      exact quiet rfl (by simp [running])
  | logWrite pid i =>
      simp only [LogSystem.step, LogSystem.liveStep,
        Option.ite_none_right_eq_some, Option.some.injEq] at stepped
      obtain ⟨running, _, rfl⟩ := stepped
      refine quiet rfl ?_
      unfold LogSystem.logWrite
      split
      · simp [LogSystem.panic]
      · split <;> simp [LogSystem.panic, running]
  | logAppend pid i =>
      simp only [LogSystem.step, LogSystem.liveStep,
        Option.ite_none_right_eq_some] at stepped
      obtain ⟨running, _, result⟩ := stepped
      split at result <;> cases result
      exact quiet rfl (by simp [LogSystem.logAppend, running])
  | brelse pid i =>
      simp only [LogSystem.step, LogSystem.liveStep,
        Option.ite_none_right_eq_some, Option.some.injEq] at stepped
      obtain ⟨running, _, rfl⟩ := stepped
      exact quiet rfl (by simp [running])
  | unref pid i =>
      simp only [LogSystem.step, LogSystem.liveStep,
        Option.ite_none_right_eq_some] at stepped
      obtain ⟨running, result⟩ := stepped
      split at result <;> cases result
      exact quiet rfl (by simp [running])
  | work =>
      simp only [LogSystem.step, LogSystem.liveStep,
        Option.ite_none_right_eq_some] at stepped
      obtain ⟨running, result⟩ := stepped
      split at result
      · rename_i w working
        exact workStep_noBuffers (ok.live running) running working
          (Option.ite_none_right_eq_some.mp result).2
      · cases result

/-! ## What the operations leave over -/

/-- Every referenced buffer has a process at work. -/
theorem card_referenced_le (s : LogSystem) :
    (Finset.univ.filter fun i : Slot => (s.io.buf i).owner ≠ none ∨
      i ∈ s.io.referring.map Prod.snd).card ≤ (handles s).length := by
  have covered : (Finset.univ.filter fun i : Slot => (s.io.buf i).owner ≠ none ∨
      i ∈ s.io.referring.map Prod.snd) ⊆
        ((List.finRange nbuf).filter fun i => (s.io.buf i).owner.isSome).toFinset ∪
          (s.io.referring.map Prod.snd).toFinset := by
    intro i referenced
    rw [Finset.mem_union, List.mem_toFinset, List.mem_toFinset]
    refine (Finset.mem_filter.mp referenced).2.imp_left fun owned => ?_
    exact List.mem_filter.mpr ⟨List.mem_finRange i, Option.isSome_iff_ne_none.mpr owned⟩
  refine (Finset.card_le_card covered).trans ((Finset.card_union_le _ _).trans ?_)
  rw [handles, List.length_append, List.length_filterMap_eq_countP, List.countP_eq_length_filter,
    List.length_map]
  refine Nat.add_le_add (List.toFinset_card_le _) ?_
  exact (List.toFinset_card_le _).trans_eq (List.length_map _)

/-- The blocks in use are at most two for each process at work, and those of the log. -/
theorem card_usedBlocks_le (two : AtMostTwo s) :
    (usedBlocks s).card ≤ 2 * (holders s).card + s.pinned.length := by
  have each := Finset.sum_le_card_nsmul (holders s) (fun pid => (handles s).count pid) 2
    fun pid mem => two pid (List.mem_toFinset.mp mem)
  rw [holders, List.sum_toFinset_count_eq_length] at each
  have each : (handles s).length ≤ 2 * (holders s).card := by
    rw [Nat.mul_comm]
    exact each
  unfold usedBlocks
  refine (Finset.card_union_le _ _).trans (Nat.add_le_add ?_ (List.toFinset_card_le _))
  exact Finset.card_image_le.trans ((card_referenced_le s).trans each)

/-- What the operations in progress have left of their blocks is left of the buffers too. -/
theorem used_add_reserved_le (two : AtMostTwo s) (holds : Reserved s)
    (running : s.panicked = none) (idle : s.worker = none) :
    (usedBlocks s).card + reserved s ≤ 2 * (holders s).card + nbuf := by
  have used := card_usedBlocks_le two
  rw [pinned_eq idle] at used
  have room := (holds running idle).room
  change s.lh.length + reserved s ≤ nbuf at room
  omega

theorem stocked_iff_supplied {label : LogLabel} (ok : Consistent g home0 s) (holds : Reserved s)
    (two : AtMostTwo s) (stepped : s.step g label = some s') :
    Stocked g s label ↔ Supplied g s label := by
  unfold Stocked Supplied
  refine forall_congr' fun b => forall_congr' fun isRequest => or_congr_right ?_
  refine or_iff_right_of_imp fun left => ?_
  have running : s.panicked = none := by
    by_contra panicked
    cases label with
    | crash => cases isRequest
    | _ =>
        simp only [LogSystem.step, if_neg panicked] at stepped
        cases stepped
  cases working : s.worker with
  | none =>
      have bound := used_add_reserved_le two holds running working
      omega
  | some w =>
      -- Nothing is reserved while `commit` or `recover_from_log` runs.
      rw [reserved, ((ok.live running).workerOk working).inOp] at left
      cases left

/-- In every run from a recoverable image whose operations stay within `MAXOPBLOCKS` and
whose processes have at most two buffers at a time, the blocks in use and those that the
operations may still log are between commits at most `NBUF` and two for each process at
work; and "bget: no buffers" is never reached exactly when each block that is asked for
is in use already, or the operations have more left than these processes can hold, or
fewer than `NBUF` blocks are in use. -/
theorem noBuffers_unreached_iff {disk : Disk} {labels : List LogLabel}
    (image : DiskOk g disk home0)
    (within : RunMeets (LogSystem.step g) WithinMaxopblocks (LogSystem.boot disk .empty) labels)
    (two : RunMeets (LogSystem.step g) (fun s _ => AtMostTwo s) (LogSystem.boot disk .empty)
      labels)
    (ran : run (LogSystem.step g) (LogSystem.boot disk .empty) labels = some s) :
    (AtMostTwo s → s.panicked = none → s.worker = none →
        (usedBlocks s).card + reserved s ≤ 2 * (holders s).card + nbuf) ∧
      ((∀ first middle, first <+: labels →
          run (LogSystem.step g) (LogSystem.boot disk .empty) first = some middle →
          middle.panicked ≠ some .noBuffers) ↔
        RunMeets (LogSystem.step g) (Stocked g) (LogSystem.boot disk .empty) labels) := by
  have start : Consistent g home0 (LogSystem.boot disk .empty) ∧
      Reserved (LogSystem.boot disk .empty) :=
    ⟨boot_consistent image LogHistory.Ok.empty rfl, nofun⟩
  have preserved {s next : LogSystem} {label : LogLabel}
      (holds : Consistent g home0 s ∧ Reserved s) (within : WithinMaxopblocks s label)
      (stepped : s.step g label = some next) : Consistent g home0 next ∧ Reserved next :=
    ⟨step_consistent holds.1 stepped, step_reserved holds.1 holds.2 within stepped⟩
  constructor
  · intro two running idle
    exact used_add_reserved_le two (invariant_of_runMeets preserved start within ran).2 running
      idle
  · refine always_iff_runMeets (fun holds kept _ stepped => preserved holds kept.1 stepped)
      ?_ start nofun (within.and two) ran
    intro s label next holds kept stepped
    rw [stocked_iff_supplied holds.1 holds.2 kept.2 stepped, Ne,
      step_noBuffers holds.1 stepped, Classical.not_not]

/-- After recovery as many processes read as there are buffers, and one more. -/
def manyReaders : List LogLabel :=
  recoverEmpty ++ (List.range 31).map fun k => LogLabel.bget (k + 2) (100 + k)

/-- Thirty readers outside of operations, each with one buffer, leave none for the
next. -/
theorem noBuffers_of_manyReaders :
    RunMeets (LogSystem.step mkfsGeometry) WithinMaxopblocks
        (LogSystem.boot blankDisk .empty) manyReaders ∧
      RunMeets (LogSystem.step mkfsGeometry) (fun s _ => AtMostTwo s)
        (LogSystem.boot blankDisk .empty) manyReaders ∧
      ∃ s, run (LogSystem.step mkfsGeometry) (LogSystem.boot blankDisk .empty) manyReaders =
        some s ∧ s.panicked = some .noBuffers := by
  refine ⟨by decide +kernel, by decide +kernel, ?_⟩
  have panicked : ((run (LogSystem.step mkfsGeometry)
      (LogSystem.boot blankDisk .empty) manyReaders).any fun s =>
        s.panicked = some .noBuffers) = true := by
    decide +kernel
  obtain ⟨s, ran, dry⟩ := (Option.any_eq_true _ _).mp panicked
  exact ⟨s, ran, by simpa using dry⟩

local instance twoOps_neZero : NeZero 30 := ⟨by decide⟩

/-- Two operations log two blocks each and hold buffers again, and then both end and one
of them commits. -/
def twoOps : List LogLabel :=
  recoverEmpty ++ [LogLabel.beginOp 5, .beginOp 6] ++
    (((List.finRange 29).take 4).flatMap fun i => logOne (5 + i.val / 2) (60 + i.val) i.succ) ++
    [LogLabel.bget 5 60, .bget 6 63, .acquire 5 1, .acquire 6 4, .bget 5 61, .acquire 5 2,
      .brelse 5 1, .unref 5 1, .brelse 5 2, .unref 5 2, .brelse 6 4, .unref 6 4, .endOp 5,
      .endOp 6] ++
    [((1 : Slot), (5 : Slot)), (2, 6), (3, 7)].flatMap fun (dbuf, lbuf) =>
      List.replicate 9 LogLabel.work ++ [LogLabel.unref 6 dbuf, .work, .unref 6 lbuf]

theorem twoOps_noBuffers_unreached :
    (∃ s, run (LogSystem.step mkfsGeometry) (LogSystem.boot blankDisk .empty) twoOps =
        some s ∧ s.worker.isSome) ∧
      ∀ first middle, first <+: twoOps →
        run (LogSystem.step mkfsGeometry) (LogSystem.boot blankDisk .empty) first =
          some middle → middle.panicked ≠ some .noBuffers := by
  have ran : ((run (LogSystem.step mkfsGeometry) (LogSystem.boot blankDisk .empty)
      twoOps).any fun s => s.worker.isSome) = true := by
    decide +kernel
  obtain ⟨s, ran, working⟩ := (Option.any_eq_true _ _).mp ran
  have unreached := (noBuffers_unreached_iff blankDisk_ok (by decide +kernel)
    (by decide +kernel) ran).2
  exact ⟨⟨s, ran, working⟩, unreached.mpr (by decide +kernel)⟩

end Xv6
