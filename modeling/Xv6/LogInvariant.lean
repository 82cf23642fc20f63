import Mathlib.Data.Finset.Card
import Mathlib.Data.Fintype.Card
import Xv6.LogModel

/-!
# The invariant of the log

The disk is recoverable to the committed home blocks in every state.  While
the machine runs, the dirty buffers are those of the logged blocks that have
not been installed yet and hold the home blocks as the current operations see
them, and the worker's position says which log blocks have been staged and
which home blocks have been installed.
-/

namespace Xv6

open ByteFields RedoLog

/-- The home blocks after the committed transactions. -/
def LogHistory.home (h : LogHistory) (home0 : Disk) : Disk :=
  applyUpdates h.committedUpdates home0

/-- The home blocks as the operations of the current group see them. -/
def LogHistory.newHome (h : LogHistory) (home0 : Disk) : Disk :=
  applyUpdates h.current (h.home home0)

/-- Recovery from this disk produces the target. -/
structure DiskOk (g : LogGeometry) (disk target : Disk) : Prop where
  short : (headerEntries (disk g.start)).length < logsize
  isHome : ∀ b ∈ headerEntries (disk g.start), g.Home b
  recoverable : Recoverable g.Home (headerEntries (disk g.start))
    (fun k => disk (g.logBlock k)) disk target

/-- Every operation's updates are all committed or all absent, and those of
the current group are all in the current transaction. -/
structure LogHistory.Ok (h : LogHistory) : Prop where
  fresh : ∀ u ∈ h.made, u.op < h.nextOp
  groupFresh : ∀ op ∈ h.group, op < h.nextOp
  committedFresh : ∀ op ∈ h.committedOps, op < h.nextOp
  whole : ∀ op ∈ h.committedOps,
    updatesOf op h.committedUpdates = updatesOf op h.made
  absent : ∀ op, op ∉ h.committedOps → updatesOf op h.committedUpdates = []
  group : ∀ op ∈ h.group, op ∉ h.committedOps ∧
    updatesOf op h.current = updatesOf op h.made
  current : ∀ u ∈ h.current, u.op ∈ h.group
  returned : ∀ op ∈ h.returned, op ∈ h.committedOps

/-- How many entries the worker has installed. -/
def LogPc.installed : LogPc → Nat
  | .copyLog .toHome tail _ => tail
  | .copyHome .toHome tail _ _ => tail
  | .copyData .toHome tail _ _ => tail
  | .copyWrite .toHome tail _ _ => tail
  | .copyRelseSource .toHome tail _ _ => tail + 1
  | .copyRelseTarget .toHome tail _ _ => tail + 1
  | _ => 0

/-- The buffer that the worker has changed and not yet written. -/
def LogPc.Unwritten : LogPc → Slot → Prop
  | .headWrite _ i, j => j = i
  | .copyWrite kind _ lbuf dbuf, j => j = LogSystem.copyTarget kind lbuf dbuf
  | _, _ => False

namespace LogSystem

/-- The blocks that the log keeps in the cache. -/
def pinned (s : LogSystem) : List Nat :=
  match s.worker with
  | none => s.lh
  | some w => if w.recovering then [] else s.lh.drop w.pc.installed

/-- The buffers changed since they were last logged or written. -/
def Loose (s : LogSystem) (i : Slot) : Prop :=
  i ∈ s.unlogged ∨ ∃ w ∈ s.worker, w.pc.Unwritten i

end LogSystem

/-- Where the worker's `bread` of a block stands. -/
def BreadOk (io : IoState) (pid : Pid) (blockno : Nat) : BreadPc → Prop
  | .get => True
  | .lock i => Waits io pid i blockno
  | .fill i => Holds io pid i blockno

/-- The worker has the block in a valid buffer. -/
structure Has (io : IoState) (pid : Pid) (i : Slot) (blockno : Nat) :
    Prop extends Holds io pid i blockno where
  valid : (io.buf i).valid = true

section Phases

variable (g : LogGeometry) (home0 : Disk) (disk : Disk) (lh : List Nat)
  (h : LogHistory) (recovering : Bool)

/-- The logged blocks are distinct home blocks. -/
structure EntriesOk : Prop where
  nodup : lh.Nodup
  isHome : ∀ b ∈ lh, g.Home b
  bounded : ∀ b ∈ lh, b < fssize

/-- The first `tail` log blocks hold the new contents, and the commit record
is still empty. -/
structure Staged (tail : Nat) : Prop where
  running : recovering = false
  entries : EntriesOk g lh
  erased : headerEntries (disk g.start) = []
  fits : tail = 0 ∨ lh.length < logsize
  staged : ∀ k b, k < tail → lh[k]? = some b →
    disk (g.logBlock k) = h.newHome home0 b

/-- The commit record is written and the first `tail` entries are home. -/
structure Installed (tail : Nat) : Prop where
  nodup : recovering = false → lh.Nodup
  current : h.current = []
  entries : headerEntries (disk g.start) = lh
  installed : ∀ k b, k < tail → lh[k]? = some b → disk b = h.home home0 b

/-- Before the header block is read or written. -/
def HeadPre : HeadKind → Prop
  | .read => recovering = true ∧ h.current = []
  | .commit => Staged g home0 disk lh h recovering lh.length ∧
      lh.length < logsize
  | .clear => lh = [] ∧ ∀ b ∈ headerEntries (disk g.start),
      disk b = h.home home0 b

/-- After it. -/
def HeadPost : HeadKind → Prop
  | .clear => lh = [] ∧ headerEntries (disk g.start) = []
  | _ => Installed g home0 disk lh h recovering 0

/-- In the copying loops. -/
def CopyPre : CopyKind → Nat → Prop
  | .toLog, tail => Staged g home0 disk lh h recovering tail
  | .toHome, tail => Installed g home0 disk lh h recovering tail

end Phases

/-- What holds at each position of the worker. -/
def PcOk (g : LogGeometry) (home0 : Disk) (io : IoState) (lh : List Nat)
    (h : LogHistory) (w : LogWorker) : Prop :=
  match w.pc with
  | .head kind bread =>
      HeadPre g home0 io.disk lh h w.recovering kind ∧
        BreadOk io w.pid g.start bread
  | .headData kind i =>
      HeadPre g home0 io.disk lh h w.recovering kind ∧
        Has io w.pid i g.start
  | .headWrite kind i =>
      HeadPre g home0 io.disk lh h w.recovering kind ∧
        Has io w.pid i g.start ∧ kind ≠ .read ∧
        headerEntries (io.buf i).data = lh
  | .headRelse kind i =>
      HeadPost g home0 io.disk lh h w.recovering kind ∧
        Has io w.pid i g.start
  | .copyLog kind tail bread =>
      CopyPre g home0 io.disk lh h w.recovering kind tail ∧
        tail < lh.length ∧ BreadOk io w.pid (g.logBlock tail) bread
  | .copyHome kind tail lbuf bread =>
      CopyPre g home0 io.disk lh h w.recovering kind tail ∧
        tail < lh.length ∧ Has io w.pid lbuf (g.logBlock tail) ∧
        BreadOk io w.pid (lh.getD tail 0) bread
  | .copyData kind tail lbuf dbuf =>
      CopyPre g home0 io.disk lh h w.recovering kind tail ∧
        tail < lh.length ∧ Has io w.pid lbuf (g.logBlock tail) ∧
        Has io w.pid dbuf (lh.getD tail 0)
  | .copyWrite kind tail lbuf dbuf =>
      CopyPre g home0 io.disk lh h w.recovering kind tail ∧
        tail < lh.length ∧ Has io w.pid lbuf (g.logBlock tail) ∧
        Has io w.pid dbuf (lh.getD tail 0) ∧
        (io.buf (LogSystem.copyTarget kind lbuf dbuf)).data =
          h.newHome home0 (lh.getD tail 0)
  | .copyRelseSource kind tail lbuf dbuf =>
      CopyPre g home0 io.disk lh h w.recovering kind (tail + 1) ∧
        tail < lh.length ∧ Has io w.pid lbuf (g.logBlock tail) ∧
        Has io w.pid dbuf (lh.getD tail 0)
  | .copyRelseTarget kind tail lbuf dbuf =>
      CopyPre g home0 io.disk lh h w.recovering kind (tail + 1) ∧
        tail < lh.length ∧
        (io.buf (LogSystem.copyTarget kind lbuf dbuf)).owner = some w.pid
  | .finish => lh = [] ∧ headerEntries (io.disk g.start) = []

/-- What holds between the worker and the operations. -/
def PhaseOk (g : LogGeometry) (home0 : Disk) (s : LogSystem) : Prop :=
  match s.worker with
  | none => EntriesOk g s.lh ∧ headerEntries (s.io.disk g.start) = []
  | some w => (w.recovering = false → s.committing = true) ∧ s.inOp = [] ∧
      PcOk g home0 s.io s.lh s.history w

/-- The part of the invariant that does not depend on the worker. -/
structure Core (g : LogGeometry) (home0 : Disk) (s : LogSystem)
    (loose : Slot → Prop) (pinned : List Nat) : Prop where
  io : IoOk s.io loose pinned
  outstanding : s.outstanding = s.inOp.length
  nodup : (s.inOp.map Prod.fst).Nodup
  group : ∀ entry ∈ s.inOp, entry.2 ∈ s.history.group
  updates : ∀ u ∈ s.history.current, u.blockno ∈ s.lh
  appending : ∀ entry ∈ s.appending, s.Writes g entry.1 entry.2
  unlogged : ∀ i ∈ s.unlogged, ∃ pid, s.Writes g pid i
  content : ∀ i, (s.io.buf i).dirty = true → i ∉ s.unlogged →
    (s.io.buf i).data = s.history.newHome home0 (s.io.buf i).blockno

/-- The invariant of a running machine. -/
structure Live (g : LogGeometry) (home0 : Disk) (s : LogSystem) : Prop where
  core : Core g home0 s s.Loose s.pinned
  phase : PhaseOk g home0 s

/-- The invariant of every reachable state. -/
structure Consistent (g : LogGeometry) (home0 : Disk) (s : LogSystem) :
    Prop where
  disk : DiskOk g s.io.disk (s.history.home home0)
  history : s.history.Ok
  live : s.panicked = none → Live g home0 s

/-! ## The header block -/

theorem getWord_storeEntries_of_lt {header : Block} {i at' : Nat}
    {lh : List Nat} (room : 4 * (i + lh.length) + 4 ≤ bsize)
    (before : at' + 4 ≤ 4 * i + 4) :
    getWord (storeEntries header i lh) at' = getWord header at' := by
  induction lh generalizing header i with
  | nil => rfl
  | cons b rest ih =>
      rw [List.length_cons] at room
      rw [storeEntries, ih (by omega) (by omega)]
      exact getWord_setWord_of_disjoint _ _ (by omega) (.inl before)

theorem getWord_storeEntries {header : Block} {i k b : Nat} {lh : List Nat}
    (room : 4 * (i + lh.length) + 4 ≤ bsize) (small : ∀ b ∈ lh, b < fssize)
    (entry : lh[k]? = some b) :
    getWord (storeEntries header i lh) (4 * (i + k) + 4) = b := by
  induction lh generalizing header i k with
  | nil => simp at entry
  | cons first rest ih =>
      rw [List.length_cons] at room
      cases k with
      | zero =>
          simp only [List.getElem?_cons_zero, Option.some.injEq] at entry
          subst entry
          have bounded : first < 1000 := small first List.mem_cons_self
          rw [storeEntries, show i + 0 = i from rfl,
            getWord_storeEntries_of_lt (by omega) (by omega),
            getWord_setWord _ _ (by omega)]
          exact Nat.mod_eq_of_lt (by omega)
      | succ k =>
          rw [List.getElem?_cons_succ] at entry
          rw [storeEntries, show i + (k + 1) = i + 1 + k by omega]
          exact ih (by omega) (fun b mem => small b (List.mem_cons_of_mem _ mem))
            entry

/-- `read_head` reads back what `write_head` wrote. -/
theorem headerEntries_headerBlock {header : Block} {lh : List Nat}
    (short : lh.length < logsize) (small : ∀ b ∈ lh, b < fssize) :
    headerEntries (headerBlock header lh) = lh := by
  have length : lh.length < 30 := short
  have room : 4 * (0 + lh.length) + 4 ≤ bsize := by
    change _ ≤ 512
    omega
  have count : getWord (headerBlock header lh) 0 = lh.length := by
    rw [headerBlock, getWord_storeEntries_of_lt room (by omega),
      getWord_setWord _ _ (by decide)]
    exact Nat.mod_eq_of_lt (by omega)
  apply List.ext_getElem?
  intro k
  rw [headerEntries, count, List.getElem?_map]
  by_cases inside : k < lh.length
  · obtain ⟨b, entry⟩ : ∃ b, lh[k]? = some b :=
      ⟨_, List.getElem?_eq_getElem inside⟩
    have stored : getWord (headerBlock header lh) (4 * (0 + k) + 4) = b :=
      getWord_storeEntries room small entry
    rw [List.getElem?_range inside, Option.map_some, entry, ← stored,
      Nat.zero_add]
  · rw [List.getElem?_eq_none (by simpa using inside),
      List.getElem?_eq_none (by simpa using inside)]
    rfl

/-! ## The history -/

namespace LogHistory

variable {h : LogHistory} {home0 : Disk}

theorem applyUpdates_append (first second : List LogUpdate) (home : Disk) :
    applyUpdates (first ++ second) home =
      applyUpdates second (applyUpdates first home) := by
  rw [applyUpdates, List.map_append, replay_append]
  rfl

theorem updatesOf_append (op : Nat) (first second : List LogUpdate) :
    updatesOf op (first ++ second) =
      updatesOf op first ++ updatesOf op second :=
  List.filter_append _ _

theorem updatesOf_eq_nil {op : Nat} {updates : List LogUpdate}
    (none : ∀ u ∈ updates, u.op ≠ op) : updatesOf op updates = [] := by
  simpa [updatesOf] using none

@[simp]
theorem committedUpdates_commit :
    h.commit.committedUpdates = h.committedUpdates ++ h.current := by
  simp [committedUpdates, commit]

@[simp]
theorem committedOps_commit :
    h.commit.committedOps = h.committedOps ++ h.group := by
  simp [committedOps, commit]

theorem home_commit : h.commit.home home0 = h.newHome home0 := by
  rw [home, committedUpdates_commit, applyUpdates_append]
  rfl

theorem newHome_of_current (current : h.current = []) :
    h.newHome home0 = h.home home0 := by
  rw [newHome, current]
  rfl

theorem newHome_of_not_mem {b : Nat} (untouched : ∀ u ∈ h.current, u.blockno ≠ b) :
    h.newHome home0 b = h.home home0 b := by
  refine replay_of_not_mem ?_ _
  simpa using untouched

theorem newHome_append (u : LogUpdate) :
    (h.append u).newHome home0 =
      Function.update (h.newHome home0) u.blockno u.data := by
  change applyUpdates (h.current ++ [u]) (h.home home0) = _
  rw [applyUpdates_append]
  rfl

namespace Ok

theorem empty : LogHistory.empty.Ok := by
  constructor <;> simp [LogHistory.empty, committedOps, committedUpdates,
    updatesOf]

theorem beginOp (ok : h.Ok) : h.beginOp.Ok := by
  have unused (updates : List LogUpdate) (old : ∀ u ∈ updates, u.op < h.nextOp) :
      updatesOf h.nextOp updates = [] :=
    updatesOf_eq_nil fun u mem => Nat.ne_of_lt (old u mem)
  refine
    { fresh := fun u mem => Nat.lt_succ_of_lt (ok.fresh u mem)
      groupFresh := ?_
      committedFresh := fun op mem => Nat.lt_succ_of_lt (ok.committedFresh op mem)
      whole := ok.whole
      absent := ok.absent
      group := ?_
      current := fun u mem => List.mem_cons_of_mem _ (ok.current u mem)
      returned := ok.returned }
  · intro op mem
    rcases List.mem_cons.mp mem with rfl | old
    · exact Nat.lt_succ_self _
    · exact Nat.lt_succ_of_lt (ok.groupFresh op old)
  · intro op mem
    rcases List.mem_cons.mp mem with rfl | old
    · refine ⟨fun committed => ?_, ?_⟩
      · exact absurd (ok.committedFresh _ committed) (Nat.lt_irrefl _)
      · change updatesOf h.nextOp h.current = updatesOf h.nextOp h.made
        rw [unused _ fun u mem => ok.groupFresh _ (ok.current u mem),
          unused _ ok.fresh]
    · exact ok.group op old

theorem append (ok : h.Ok) {u : LogUpdate} (mem : u.op ∈ h.group) :
    (h.append u).Ok := by
  have other (op : Nat) (committed : op ∈ h.committedOps) : u.op ≠ op :=
    fun eq => (ok.group u.op mem).1 (eq ▸ committed)
  refine
    { fresh := ?_
      groupFresh := ok.groupFresh
      committedFresh := ok.committedFresh
      whole := ?_
      absent := ok.absent
      group := ?_
      current := ?_
      returned := ok.returned }
  · intro v inMade
    rcases List.mem_append.mp inMade with old | new
    · exact ok.fresh v old
    · cases List.mem_singleton.mp new
      exact ok.groupFresh _ mem
  · intro op committed
    change updatesOf op h.committedUpdates = updatesOf op (h.made ++ [u])
    have none : updatesOf op [u] = [] :=
      updatesOf_eq_nil (by simpa using other op committed)
    rw [updatesOf_append, ok.whole op committed, none, List.append_nil]
  · intro op inGroup
    obtain ⟨fresh, same⟩ := ok.group op inGroup
    refine ⟨fresh, ?_⟩
    change updatesOf op (h.current ++ [u]) = updatesOf op (h.made ++ [u])
    rw [updatesOf_append, updatesOf_append, same]
  · intro v inCurrent
    rcases List.mem_append.mp inCurrent with old | new
    · exact ok.current v old
    · cases List.mem_singleton.mp new
      exact mem

theorem commit (ok : h.Ok) : h.commit.Ok := by
  refine
    { fresh := ok.fresh
      groupFresh := fun _ none => absurd none List.not_mem_nil
      committedFresh := ?_
      whole := ?_
      absent := ?_
      group := fun _ none => absurd none List.not_mem_nil
      current := fun _ none => absurd none List.not_mem_nil
      returned := ?_ }
  · intro op mem
    rw [committedOps_commit] at mem
    rcases List.mem_append.mp mem with old | new
    · exact ok.committedFresh op old
    · exact ok.groupFresh op new
  · intro op mem
    rw [committedOps_commit] at mem
    rw [committedUpdates_commit, updatesOf_append]
    change _ = updatesOf op h.made
    rcases List.mem_append.mp mem with old | new
    · rw [ok.whole op old, updatesOf_eq_nil fun u mem eq =>
        (ok.group u.op (ok.current u mem)).1 (eq ▸ old), List.append_nil]
    · obtain ⟨fresh, same⟩ := ok.group op new
      rw [ok.absent op fresh, same, List.nil_append]
  · intro op mem
    rw [committedOps_commit, List.mem_append, not_or] at mem
    have none (u : LogUpdate) (inCurrent : u ∈ h.current) : u.op ≠ op := by
      rintro rfl
      exact mem.2 (ok.current u inCurrent)
    rw [committedUpdates_commit, updatesOf_append, ok.absent op mem.1,
      updatesOf_eq_nil none, List.append_nil]
  · intro op mem
    rw [committedOps_commit]
    exact List.mem_append_left _ (ok.returned op mem)

theorem commitReturned (ok : h.Ok) : h.commitReturned.Ok := by
  refine { ok with returned := ?_ }
  intro op mem
  rcases List.mem_append.mp mem with old | new
  · exact ok.returned op old
  · cases last : h.committed.getLast? with
    | none => simp [last] at new
    | some txn =>
        rw [last] at new
        exact List.mem_flatMap.mpr ⟨txn, List.mem_of_getLast? last, new⟩

theorem crash (ok : h.Ok) : h.crash.Ok :=
  { ok with
    groupFresh := fun _ none => absurd none List.not_mem_nil
    group := fun _ none => absurd none List.not_mem_nil
    current := fun _ none => absurd none List.not_mem_nil }

end Ok

end LogHistory

/-! ## The disk -/

namespace LogGeometry

variable {g : LogGeometry}

theorem not_home_start : ¬ g.Home g.start := by
  have fits := g.logsize_le
  simp only [logsize, maxopblocks] at fits
  unfold Home
  omega

theorem not_home_logBlock {k : Nat} (short : k + 1 < logsize) :
    ¬ g.Home (g.logBlock k) := by
  have fits := g.logsize_le
  simp only [logsize, maxopblocks] at fits short
  unfold Home logBlock
  omega

theorem logBlock_ne_start (k : Nat) : g.logBlock k ≠ g.start := by
  unfold logBlock
  omega

theorem logBlock_injective {k l : Nat} (same : g.logBlock k = g.logBlock l) :
    k = l := by
  unfold logBlock at same
  omega

end LogGeometry

namespace DiskOk

variable {g : LogGeometry} {disk target target' : Disk} {b : Nat}
  {block : Block}

/-- A disk whose commit record is empty. -/
theorem of_erased (erased : headerEntries (disk g.start) = [])
    (same : ∀ b, g.Home b → disk b = target b) : DiskOk g disk target := by
  refine ⟨?_, ?_, ?_⟩
  · rw [erased]
    exact Nat.zero_lt_succ _
  · rw [erased]
    exact fun _ none => absurd none List.not_mem_nil
  · rw [erased]
    exact Recoverable.nil_iff.mpr same

theorem home_of_erased (ok : DiskOk g disk target)
    (erased : headerEntries (disk g.start) = []) (b : Nat) (isHome : g.Home b) :
    disk b = target b := by
  have recoverable := ok.recoverable
  rw [erased] at recoverable
  exact Recoverable.nil_iff.mp recoverable b isHome

/-- Staging a block in the log area before the commit. -/
theorem stage (ok : DiskOk g disk target)
    (erased : headerEntries (disk g.start) = []) (inLog : ¬ g.Home b)
    (apart : b ≠ g.start) : DiskOk g (Function.update disk b block) target := by
  refine of_erased ?_ fun c isHome => ?_
  · rw [Function.update_of_ne (Ne.symm apart)]
    exact erased
  · have : c ≠ b := fun eq => inLog (eq ▸ isHome)
    rw [Function.update_of_ne this]
    exact ok.home_of_erased erased c isHome

/-- Writing the commit record. -/
theorem commit (ok : DiskOk g disk target)
    (erased : headerEntries (disk g.start) = [])
    (short : (headerEntries block).length < logsize)
    (isHome : ∀ b ∈ headerEntries block, g.Home b)
    (staged : ∀ k b, (headerEntries block)[k]? = some b →
      disk (g.logBlock k) = target' b)
    (rest : ∀ b, b ∉ headerEntries block → target' b = target b) :
    DiskOk g (Function.update disk g.start block) target' := by
  refine ⟨?_, ?_, ?_⟩
  · rw [Function.update_self]
    exact short
  · rw [Function.update_self]
    exact isHome
  · rw [Function.update_self]
    have before : Recoverable g.Home []
        (fun k => Function.update disk g.start block (g.logBlock k))
        (Function.update disk g.start block) target := by
      refine Recoverable.nil_iff.mpr fun b isHome => ?_
      have : b ≠ g.start := fun eq => g.not_home_start (eq ▸ isHome)
      rw [Function.update_of_ne this]
      exact ok.home_of_erased erased b isHome
    refine before.commit ?_ rest
    · intro k b entry
      rw [Function.update_of_ne (g.logBlock_ne_start k)]
      exact staged k b entry

/-- Writing the block of an entry home. -/
theorem install (ok : DiskOk g disk target)
    (mem : b ∈ headerEntries (disk g.start)) :
    DiskOk g (Function.update disk b block) target := by
  have isHome := ok.isHome b mem
  have header : Function.update disk b block g.start = disk g.start := by
    refine Function.update_of_ne (fun eq => g.not_home_start ?_) _ _
    rw [eq]
    exact isHome
  refine ⟨?_, ?_, ?_⟩
  · rw [header]
    exact ok.short
  · rw [header]
    exact ok.isHome
  · rw [header]
    have installed := ok.recoverable.install mem block
    refine ⟨fun k c entry => ?_, installed.rest⟩
    have inside : k < (headerEntries (disk g.start)).length := by
      obtain ⟨bound, _⟩ := List.getElem?_eq_some_iff.mp entry
      exact bound
    have short := ok.short
    have inLog : ¬ g.Home (g.logBlock k) := g.not_home_logBlock (by omega)
    have : g.logBlock k ≠ b := fun eq => inLog (eq ▸ isHome)
    rw [Function.update_of_ne this]
    exact ok.recoverable.logged k c entry

/-- Erasing the commit record once everything is installed. -/
theorem erase (ok : DiskOk g disk target) (erased : headerEntries block = [])
    (installed : ∀ b ∈ headerEntries (disk g.start), disk b = target b) :
    DiskOk g (Function.update disk g.start block) target := by
  refine of_erased ?_ fun b isHome => ?_
  · rw [Function.update_self]
    exact erased
  · have : b ≠ g.start := fun eq => g.not_home_start (eq ▸ isHome)
    rw [Function.update_of_ne this]
    have all : Recoverable g.Home [] (fun k => disk (g.logBlock k)) disk
        target := ok.recoverable.erase installed
    exact Recoverable.nil_iff.mp all b isHome

end DiskOk

end Xv6
