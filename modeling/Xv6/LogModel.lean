import Xv6.BufferCache
import Xv6.LabelledRuns
import Xv6.RedoLog

/-!
# The log

The redo log of `log.c` over the buffer cache, with any number of processes.
A process calls `begin_op`, reads and locks buffers, changes their contents,
calls `log_write` on each changed buffer before it releases it, and calls
`end_op`.  The process whose `end_op` finds no other operation outstanding
runs `commit`; after a crash the first process runs `recover_from_log`.  Both
are executed one cache operation or disk write at a time, and the machine may
crash between any two steps.
-/

namespace Xv6

open ByteFields RedoLog

/-- `MAXOPBLOCKS` -/
abbrev maxopblocks : Nat := 10

/-- `LOGSIZE` -/
abbrev logsize : Nat := maxopblocks * 3

/-- Where the log lies: `log.start` and `log.size`, with at least the
`LOGSIZE` blocks that `mkfs` reserves. -/
structure LogGeometry where
  start : Nat
  size : Nat
  logsize_le : logsize ≤ size

namespace LogGeometry

/-- The block is outside the log area. -/
def Home (g : LogGeometry) (blockno : Nat) : Prop :=
  blockno < g.start ∨ g.start + g.size ≤ blockno

instance (g : LogGeometry) (blockno : Nat) : Decidable (g.Home blockno) :=
  inferInstanceAs (Decidable (_ ∨ _))

/-- `log.start+tail+1` -/
def logBlock (g : LogGeometry) (tail : Nat) : Nat :=
  g.start + tail + 1

end LogGeometry

/-- The `n` and `block` fields of a header block, as `read_head` reads them. -/
def headerEntries (header : Block) : List Nat :=
  (List.range (getWord header 0)).map fun i => getWord header (4 * i + 4)

/-- The loop of `write_head`, from index `i` on. -/
def storeEntries (header : Block) : Nat → List Nat → Block
  | _, [] => header
  | i, blockno :: rest =>
      storeEntries (setWord header (4 * i + 4) blockno) (i + 1) rest

/-- `write_head`'s changes to the header block. -/
def headerBlock (header : Block) (lh : List Nat) : Block :=
  storeEntries (setWord header 0 lh.length) 0 lh

/-- The `panic` calls that the modelled code can reach. -/
inductive LogPanic where
  /-- "bget: no buffers" -/
  | noBuffers
  /-- "incorrect blockno" -/
  | incorrectBlockno
  /-- "too big a transaction" -/
  | tooBig
  /-- "log_write outside of trans" -/
  | outsideTrans
  /-- "log.committing" -/
  | logCommitting
  deriving DecidableEq

/-- Where a `bread` stands. -/
inductive BreadPc where
  | get
  | lock (i : Slot)
  | fill (i : Slot)

/-- The uses of the header block: `read_head`, the `write_head` that commits
and the `write_head` that erases. -/
inductive HeadKind where
  | read
  | commit
  | clear

/-- The two copying loops: `write_log` and `install_trans`. -/
inductive CopyKind where
  | toLog
  | toHome

/-- Where `commit` or `recover_from_log` stands.  In the copying loops `lbuf`
is the buffer of the log block and `dbuf` that of the home block. -/
inductive LogPc where
  | head (kind : HeadKind) (bread : BreadPc)
  | headData (kind : HeadKind) (i : Slot)
  | headWrite (kind : HeadKind) (i : Slot)
  | headRelse (kind : HeadKind) (i : Slot)
  | copyLog (kind : CopyKind) (tail : Nat) (bread : BreadPc)
  | copyHome (kind : CopyKind) (tail : Nat) (lbuf : Slot) (bread : BreadPc)
  | copyData (kind : CopyKind) (tail : Nat) (lbuf dbuf : Slot)
  | copyWrite (kind : CopyKind) (tail : Nat) (lbuf dbuf : Slot)
  | copyRelseSource (kind : CopyKind) (tail : Nat) (lbuf dbuf : Slot)
  | copyRelseTarget (kind : CopyKind) (tail : Nat) (lbuf dbuf : Slot)
  | finish

/-- The process that runs `commit` or `recover_from_log`. -/
structure LogWorker where
  pid : Pid
  recovering : Bool
  pc : LogPc

/-- A block logged by an operation, with its contents at the `log_write`. -/
structure LogUpdate where
  op : Nat
  blockno : Nat
  data : Block

/-- A group of operations that commits as a whole. -/
structure Transaction where
  ops : List Nat
  updates : List LogUpdate

/-- What happened so far: the updates of all operations, the operations and
updates since the last commit, the committed transactions, and the operations
whose commit has returned. -/
structure LogHistory where
  nextOp : Nat
  made : List LogUpdate
  group : List Nat
  current : List LogUpdate
  committed : List Transaction
  returned : List Nat

namespace LogHistory

/-- No operation has started. -/
def empty : LogHistory :=
  ⟨0, [], [], [], [], []⟩

def beginOp (h : LogHistory) : LogHistory :=
  { h with nextOp := h.nextOp + 1, group := h.nextOp :: h.group }

def append (h : LogHistory) (update : LogUpdate) : LogHistory :=
  { h with made := h.made ++ [update], current := h.current ++ [update] }

def commit (h : LogHistory) : LogHistory :=
  { h with
    committed := h.committed ++ [⟨h.group, h.current⟩]
    group := []
    current := [] }

def commitReturned (h : LogHistory) : LogHistory :=
  { h with returned := h.returned ++
      (h.committed.getLast?.map Transaction.ops).getD [] }

def crash (h : LogHistory) : LogHistory :=
  { h with group := [], current := [] }

/-- The updates of the committed transactions, in order. -/
def committedUpdates (h : LogHistory) : List LogUpdate :=
  h.committed.flatMap Transaction.updates

/-- The operations of the committed transactions. -/
def committedOps (h : LogHistory) : List Nat :=
  h.committed.flatMap Transaction.ops

end LogHistory

/-- The updates of one operation. -/
def updatesOf (op : Nat) (updates : List LogUpdate) : List LogUpdate :=
  updates.filter fun update => update.op = op

/-- Execute updates on the home blocks. -/
def applyUpdates (updates : List LogUpdate) (home : Disk) : Disk :=
  replay (updates.map fun update => (update.blockno, update.data)) home

/-- The machine: disk and cache, the fields of `log`, and where each process
stands.  `inOp` lists the processes between `begin_op` and `end_op` with their
operation, `appending` those inside `log_write` past its tests, and `unlogged`
the buffers changed since their last `log_write`. -/
structure LogSystem where
  io : IoState
  outstanding : Nat
  committing : Bool
  lh : List Nat
  worker : Option LogWorker
  inOp : List (Pid × Nat)
  appending : List (Pid × Slot)
  unlogged : List Slot
  panicked : Option LogPanic
  history : LogHistory

namespace LogSystem

/-- The machine as it boots: the first process calls `recover_from_log`. -/
def boot (disk : Disk) (history : LogHistory) : LogSystem where
  io := ⟨disk, binit, [], []⟩
  outstanding := 0
  committing := false
  lh := []
  worker := some ⟨1, true, .head .read .get⟩
  inOp := []
  appending := []
  unlogged := []
  panicked := none
  history := history

def panic (s : LogSystem) (message : LogPanic) : LogSystem :=
  { s with panicked := some message }

/-- Set where the worker stands. -/
def goto (s : LogSystem) (w : LogWorker) (pc : LogPc) : LogSystem :=
  { s with worker := some { w with pc := pc } }

/-- One step of a `bread` by the worker. -/
def breadStep (s : LogSystem) (w : LogWorker) (blockno : Nat)
    (again : BreadPc → LogPc) (done : Slot → LogPc) :
    BreadPc → Option LogSystem
  | .get =>
      match s.io.bget w.pid blockno with
      | some (i, io) => some ({ s with io := io }.goto w (again (.lock i)))
      | none => some (s.panic .noBuffers)
  | .lock i =>
      match s.io.acquire w.pid i with
      | some io => some ({ s with io := io }.goto w (again (.fill i)))
      | none => none
  | .fill i =>
      if (s.io.buf i).valid then some (s.goto w (done i))
      else
        match s.io.fill i with
        | some io => some ({ s with io := io }.goto w (done i))
        | none => some (s.panic .incorrectBlockno)

/-- The loop test of `write_log` and `install_trans`, and what follows the
loop: `write_head`, after `log.lh.n = 0` in the second case. -/
def copyTest (s : LogSystem) (w : LogWorker) (kind : CopyKind) (tail : Nat) :
    LogSystem :=
  if tail < s.lh.length then s.goto w (.copyLog kind tail .get)
  else
    match kind with
    | .toLog => s.goto w (.head .commit .get)
    | .toHome => { s with lh := [] }.goto w (.head .clear .get)

/-- The buffer that a copying loop fills and writes. -/
def copyTarget : CopyKind → Slot → Slot → Slot
  | .toLog, lbuf, _ => lbuf
  | .toHome, _, dbuf => dbuf

/-- The buffer that a copying loop copies from. -/
def copySource : CopyKind → Slot → Slot → Slot
  | .toLog, _, dbuf => dbuf
  | .toHome, lbuf, _ => lbuf

/-- One step of `commit` or `recover_from_log`. -/
def workStep (g : LogGeometry) (s : LogSystem) (w : LogWorker) :
    Option LogSystem :=
  match w.pc with
  | .head kind bread =>
      s.breadStep w g.start (.head kind) (.headData kind) bread
  | .headData .read i =>
      some ({ s with lh := headerEntries (s.io.buf i).data }.goto w
        (.headRelse .read i))
  | .headData kind i =>
      let header := headerBlock (s.io.buf i).data s.lh
      some ({ s with io := s.io.setData i header }.goto w (.headWrite kind i))
  | .headWrite kind i =>
      match s.io.bwrite i with
      | some io =>
          let history :=
            match kind with
            | .commit => s.history.commit
            | _ => s.history
          some ({ s with io := io, history := history }.goto w
            (.headRelse kind i))
      | none => some (s.panic .incorrectBlockno)
  | .headRelse kind i =>
      let s := { s with io := s.io.brelse w.pid i }
      match kind with
      | .clear => some (s.goto w .finish)
      | _ => some (s.copyTest w .toHome 0)
  | .copyLog kind tail bread =>
      s.breadStep w (g.logBlock tail) (.copyLog kind tail)
        (fun lbuf => .copyHome kind tail lbuf .get) bread
  | .copyHome kind tail lbuf bread =>
      s.breadStep w (s.lh.getD tail 0) (.copyHome kind tail lbuf)
        (.copyData kind tail lbuf) bread
  | .copyData kind tail lbuf dbuf =>
      let data := (s.io.buf (copySource kind lbuf dbuf)).data
      some ({ s with io := s.io.setData (copyTarget kind lbuf dbuf) data }.goto w
        (.copyWrite kind tail lbuf dbuf))
  | .copyWrite kind tail lbuf dbuf =>
      match s.io.bwrite (copyTarget kind lbuf dbuf) with
      | some io => some ({ s with io := io }.goto w
          (.copyRelseSource kind tail lbuf dbuf))
      | none => some (s.panic .incorrectBlockno)
  | .copyRelseSource kind tail lbuf dbuf =>
      some ({ s with io := s.io.brelse w.pid (copySource kind lbuf dbuf) }.goto w
        (.copyRelseTarget kind tail lbuf dbuf))
  | .copyRelseTarget kind tail lbuf dbuf =>
      some ({ s with io := s.io.brelse w.pid (copyTarget kind lbuf dbuf) }.copyTest w
        kind (tail + 1))
  | .finish =>
      let history :=
        if w.recovering then s.history else s.history.commitReturned
      some { s with committing := false, worker := none, history := history }

end LogSystem

/-- The steps of the processes, of the one inside `commit` or
`recover_from_log`, and the crash. -/
inductive LogLabel where
  | beginOp (pid : Pid)
  | endOp (pid : Pid)
  | bget (pid : Pid) (blockno : Nat)
  | acquire (pid : Pid) (i : Slot)
  | fill (pid : Pid) (i : Slot)
  | modify (pid : Pid) (i : Slot) (data : Block)
  | logWrite (pid : Pid) (i : Slot)
  | logAppend (pid : Pid) (i : Slot)
  | brelse (pid : Pid) (i : Slot)
  | unref (pid : Pid) (i : Slot)
  | work
  | crash

namespace LogSystem

/-- The process is not the one inside `commit`, and recovery is over. -/
def Client (s : LogSystem) (pid : Pid) : Prop :=
  ∀ w ∈ s.worker, w.recovering = false ∧ w.pid ≠ pid

/-- The process is not inside `brelse`. -/
def Released (s : LogSystem) (pid : Pid) : Prop :=
  pid ∉ s.io.releasing.map Prod.fst

/-- The process is not inside `acquiresleep`, `log_write` or `brelse` either. -/
def Ready (s : LogSystem) (pid : Pid) : Prop :=
  s.Client pid ∧ pid ∉ s.io.waiting.map Prod.fst ∧
    pid ∉ s.appending.map Prod.fst ∧ s.Released pid

/-- The process is between `begin_op` and `end_op`. -/
def InOp (s : LogSystem) (pid : Pid) : Prop :=
  pid ∈ s.inOp.map Prod.fst

/-- The process holds a valid buffer of a block outside the log. -/
def Writes (g : LogGeometry) (s : LogSystem) (pid : Pid) (i : Slot) : Prop :=
  s.InOp pid ∧ (s.io.buf i).owner = some pid ∧ (s.io.buf i).valid = true ∧
    g.Home (s.io.buf i).blockno

instance (s : LogSystem) (pid : Pid) : Decidable (s.Client pid) :=
  inferInstanceAs (Decidable (∀ w ∈ s.worker, _ ∧ _))

instance (s : LogSystem) (pid : Pid) : Decidable (s.Released pid) :=
  inferInstanceAs (Decidable (_ ∉ _))

instance (s : LogSystem) (pid : Pid) : Decidable (s.Ready pid) :=
  inferInstanceAs (Decidable (_ ∧ _ ∧ _ ∧ _))

instance (s : LogSystem) (pid : Pid) : Decidable (s.InOp pid) :=
  inferInstanceAs (Decidable (_ ∈ _))

instance (g : LogGeometry) (s : LogSystem) (pid : Pid) (i : Slot) :
    Decidable (s.Writes g pid i) :=
  inferInstanceAs (Decidable (_ ∧ _ ∧ _ ∧ _))

/-- `begin_op`; `none` while it sleeps. -/
def beginOp (s : LogSystem) (pid : Pid) : Option LogSystem :=
  if s.committing then none
  else if logsize < s.lh.length + (s.outstanding + 1) * maxopblocks then none
  else
    some
      { s with
        outstanding := s.outstanding + 1
        inOp := (pid, s.history.nextOp) :: s.inOp
        history := s.history.beginOp }

/-- `end_op`, up to the call of `commit`, whose test `log.lh.n > 0` is
included. -/
def endOp (s : LogSystem) (pid : Pid) : LogSystem :=
  let s :=
    { s with
      outstanding := s.outstanding - 1
      inOp := s.inOp.eraseP fun entry => entry.1 = pid }
  if s.committing then s.panic .logCommitting
  else if s.outstanding = 0 then
    let s := { s with committing := true }
    if 0 < s.lh.length then s.goto ⟨pid, false, .finish⟩ (.copyLog .toLog 0 .get)
    else { s with history := s.history.commit }.goto ⟨pid, false, .finish⟩ .finish
  else s

/-- The tests that `log_write` makes before it acquires `log.lock`. -/
def logWrite (g : LogGeometry) (s : LogSystem) (pid : Pid) (i : Slot) :
    LogSystem :=
  if logsize ≤ s.lh.length ∨ g.size - 1 ≤ s.lh.length then s.panic .tooBig
  else if s.outstanding < 1 then s.panic .outsideTrans
  else { s with appending := (pid, i) :: s.appending }

/-- The loop of `log_write`: an entry that is already there is absorbed. -/
def absorb (lh : List Nat) (blockno : Nat) : List Nat :=
  if blockno ∈ lh then lh else lh ++ [blockno]

/-- `log_write` under `log.lock`, by an operation of a process. -/
def logAppend (s : LogSystem) (pid op : Nat) (i : Slot) : LogSystem :=
  { s with
    lh := absorb s.lh (s.io.buf i).blockno
    io := s.io.setDirty i
    appending := s.appending.erase (pid, i)
    unlogged := s.unlogged.filter (· ≠ i)
    history := s.history.append ⟨op, (s.io.buf i).blockno, (s.io.buf i).data⟩ }

local instance slot_lawfulBEq : LawfulBEq Slot := inferInstance

local instance pidSlot_lawfulBEq : LawfulBEq (Pid × Slot) := inferInstance

/-- One step of a running machine. -/
def liveStep (g : LogGeometry) (s : LogSystem) :
    LogLabel → Option LogSystem
  | .beginOp pid =>
      if s.Ready pid ∧ ¬ s.InOp pid then s.beginOp pid else none
  | .endOp pid =>
      if s.Ready pid ∧ s.InOp pid ∧
          ∀ i ∈ s.unlogged, (s.io.buf i).owner ≠ some pid then
        some (s.endOp pid)
      else none
  | .bget pid blockno =>
      if s.Ready pid then
        match s.io.bget pid blockno with
        | some (_, io) => some { s with io := io }
        | none => some (s.panic .noBuffers)
      else none
  | .acquire pid i =>
      if s.Client pid then
        match s.io.acquire pid i with
        | some io => some { s with io := io }
        | none => none
      else none
  | .fill pid i =>
      if s.Ready pid ∧ (s.io.buf i).owner = some pid ∧
          (s.io.buf i).valid = false then
        match s.io.fill i with
        | some io => some { s with io := io }
        | none => some (s.panic .incorrectBlockno)
      else none
  | .modify pid i data =>
      if s.Ready pid ∧ s.Writes g pid i then
        some { s with io := s.io.setData i data, unlogged := i :: s.unlogged }
      else none
  | .logWrite pid i =>
      if s.Ready pid ∧ s.Writes g pid i then some (s.logWrite g pid i)
      else none
  | .logAppend pid i =>
      if s.Client pid ∧ (pid, i) ∈ s.appending then
        match s.inOp.find? fun entry => entry.1 = pid with
        | some (_, op) => some (s.logAppend pid op i)
        | none => none
      else none
  | .brelse pid i =>
      if s.Ready pid ∧ (s.io.buf i).owner = some pid ∧ i ∉ s.unlogged then
        some { s with io := s.io.brelse pid i }
      else none
  | .unref pid i =>
      match s.io.unref pid i with
      | some io => some { s with io := io }
      | none => none
  | .work =>
      match s.worker with
      | some w => if s.Released w.pid then s.workStep g w else none
      | none => none
  | .crash => none

/-- One step: a crash keeps the disk only, and a machine that has panicked
does nothing else. -/
def step (g : LogGeometry) (s : LogSystem) (label : LogLabel) :
    Option LogSystem :=
  match label with
  | .crash => some (boot s.io.disk s.history.crash)
  | label => if s.panicked = none then s.liveStep g label else none

end LogSystem

end Xv6
