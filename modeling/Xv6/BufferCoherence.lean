import Xv6.LabelledRuns
import Xv6.LinkedRing
import Xv6.LogModel

/-!
# Coherence of the buffer cache

The cache of `bio.c` with its buffers linked into a ring, over the memory disk
of `memide.c`.  Any number of processes call `bread`, change the buffers they
have locked, store them with `log_write` or `bwrite`, and release them; the
last `end_op` runs `commit`, one call at a time.  `stored` remembers what was
stored for each block, and every `bread` returns that.
-/

namespace Xv6.Coherence

open LabelledRuns LinkedRing

/-- `bcache`: the buffers and the links of the list through `head`. -/
structure LinkedCache where
  buf : Slot → Buf
  links : Links Slot

namespace LinkedCache

/-- `binit` -/
def binit : LinkedCache where
  buf := Xv6.binit.buf
  links := (List.finRange nbuf).foldl Links.push Links.empty

def modify (c : LinkedCache) (i : Slot) (f : Buf → Buf) : LinkedCache :=
  { c with buf := Function.update c.buf i (f (c.buf i)) }

/-- The first loop of `bget`, from `head.next` along `next`. -/
def lookup (c : LinkedCache) (dev blockno : Nat) : Option Slot :=
  search c.links.next
    (fun i => (c.buf i).dev == dev && (c.buf i).blockno == blockno)
    (nbuf + 1) (c.links.next none)

/-- The second loop of `bget`, from `head.prev` along `prev`. -/
def victim (c : LinkedCache) : Option Slot :=
  search c.links.prev
    (fun i => (c.buf i).refcnt == 0 && !(c.buf i).dirty)
    (nbuf + 1) (c.links.prev none)

/-- `bget` up to the release of `bcache.lock`; `none` is the panic
"bget: no buffers". -/
def bget (c : LinkedCache) (dev blockno : Nat) : Option (Slot × LinkedCache) :=
  match c.lookup dev blockno with
  | some i =>
      some (i, c.modify i fun b => { b with refcnt := b.refcnt + 1 })
  | none =>
      c.victim.map fun i => (i, c.modify i fun b =>
        { b with
          dev := dev
          blockno := blockno
          valid := false
          dirty := false
          refcnt := 1 })

/-- `brelse` under `bcache.lock`: a buffer without references is unlinked and
pushed behind the head. -/
def unref (c : LinkedCache) (i : Slot) : LinkedCache :=
  let c := c.modify i fun b => { b with refcnt := b.refcnt - 1 }
  if (c.buf i).refcnt = 0 then
    { c with links := (c.links.unlink i).push i }
  else c

end LinkedCache

/-- A `bread` of a process that has not returned, and the buffer it gets. -/
structure Request where
  pid : Pid
  slot : Slot
  dev : Nat
  blockno : Nat
  deriving DecidableEq

/-- The blocks that the log occupies and the number of blocks of the disk. -/
structure Layout where
  log : LogGeometry
  disksize : Nat

/-- The cache, the disk and the log.  A `bread` waits for the lock of its buffer
and then reads, `appending` lists the calls of `log_write` past their tests,
`releasing` the buffers whose lock `brelse` has released but not their
reference, and `changed` the buffers changed since they were last stored.
`stored` is what was last stored for a block, and `breads` lists for each
`bread` that returned the block, the bytes in the buffer and the bytes last
stored. -/
structure CacheSystem where
  cache : LinkedCache
  disk : Disk
  waiting : List Request
  reading : List Request
  appending : List (Pid × Slot)
  releasing : List Slot
  changed : List Slot
  lh : List Nat
  outstanding : Nat
  committing : Bool
  worker : Option LogWorker
  stored : Disk
  breads : List (Nat × Block × Block)

local instance slot_lawfulBEq : LawfulBEq Slot := inferInstance

local instance pidSlot_lawfulBEq : LawfulBEq (Pid × Slot) := inferInstance

namespace CacheSystem

def buf (s : CacheSystem) (i : Slot) : Buf :=
  s.cache.buf i

def modify (s : CacheSystem) (i : Slot) (f : Buf → Buf) : CacheSystem :=
  { s with cache := s.cache.modify i f }

/-- `bget`, up to its `acquiresleep`. -/
def bget (s : CacheSystem) (pid : Pid) (dev blockno : Nat) :
    Option (Slot × CacheSystem) :=
  (s.cache.bget dev blockno).map fun (i, cache) =>
    (i, { s with
      cache := cache
      waiting := ⟨pid, i, dev, blockno⟩ :: s.waiting })

/-- `acquiresleep` in `bget`; not enabled while the lock is held. -/
def acquire (s : CacheSystem) (r : Request) : Option CacheSystem :=
  if r ∈ s.waiting ∧ (s.buf r.slot).owner = none then
    some { s.modify r.slot fun b => { b with owner := some r.pid } with
      waiting := s.waiting.erase r
      reading := r :: s.reading }
  else none

/-- `bread` returns. -/
def returnBread (s : CacheSystem) (r : Request) : CacheSystem :=
  { s with
    reading := s.reading.erase r
    breads := (r.blockno, (s.buf r.slot).data, s.stored r.blockno) :: s.breads }

/-- `iderw` on a locked buffer that is not dirty; there is no next state where
it panics. -/
def fill (g : Layout) (s : CacheSystem) (i : Slot) : Option CacheSystem :=
  if (s.buf i).dev = 1 ∧ (s.buf i).blockno < g.disksize then
    some (s.modify i fun b =>
      { b with data := s.disk b.blockno, valid := true })
  else none

/-- `bread` after `bget`. -/
def finishBread (g : Layout) (s : CacheSystem) (r : Request) :
    Option CacheSystem :=
  if r ∈ s.reading then
    if (s.buf r.slot).valid then some (s.returnBread r)
    else (s.fill g r.slot).map fun s => s.returnBread r
  else none

/-- A store to `b->data`. -/
def setData (s : CacheSystem) (i : Slot) (data : Block) : CacheSystem :=
  { s.modify i fun b => { b with data := data } with
    changed := i :: s.changed }

/-- `log_write` under `log.lock`. -/
def logAppend (s : CacheSystem) (pid : Pid) (i : Slot) : CacheSystem :=
  { s.modify i fun b => { b with dirty := true } with
    lh := LogSystem.absorb s.lh (s.buf i).blockno
    appending := s.appending.erase (pid, i)
    changed := s.changed.filter (· ≠ i)
    stored := Function.update s.stored (s.buf i).blockno (s.buf i).data }

/-- `bwrite`, which sets `B_DIRTY` and calls `iderw`. -/
def bwrite (g : Layout) (s : CacheSystem) (pid : Pid) (i : Slot) :
    Option CacheSystem :=
  if (s.buf i).owner = some pid ∧ (s.buf i).dev = 1 ∧
      (s.buf i).blockno < g.disksize then
    some { s.modify i fun b => { b with dirty := false, valid := true } with
      disk := Function.update s.disk (s.buf i).blockno (s.buf i).data
      changed := s.changed.filter (· ≠ i)
      stored := Function.update s.stored (s.buf i).blockno (s.buf i).data }
  else none

/-- `brelse` up to its `releasesleep`. -/
def brelse (s : CacheSystem) (pid : Pid) (i : Slot) : Option CacheSystem :=
  if (s.buf i).owner = some pid then
    some { s.modify i fun b => { b with owner := none } with
      releasing := i :: s.releasing }
  else none

/-- The rest of `brelse`. -/
def unref (s : CacheSystem) (i : Slot) : Option CacheSystem :=
  if i ∈ s.releasing then
    some { s with
      cache := s.cache.unref i
      releasing := s.releasing.erase i }
  else none

/-- The process is not the one inside `commit`, and recovery is over. -/
def Client (s : CacheSystem) (pid : Pid) : Prop :=
  ∀ w ∈ s.worker, w.recovering = false ∧ w.pid ≠ pid

/-- The process is not inside `bread` or `log_write` either. -/
def Ready (s : CacheSystem) (pid : Pid) : Prop :=
  s.Client pid ∧ pid ∉ s.waiting.map Request.pid ∧
    pid ∉ s.reading.map Request.pid ∧ pid ∉ s.appending.map Prod.fst

instance (s : CacheSystem) (pid : Pid) : Decidable (s.Client pid) :=
  inferInstanceAs (Decidable (∀ w ∈ s.worker, _ ∧ _))

instance (s : CacheSystem) (pid : Pid) : Decidable (s.Ready pid) :=
  inferInstanceAs (Decidable (_ ∧ _ ∧ _ ∧ _))

/-- Set where the worker stands. -/
def goto (s : CacheSystem) (w : LogWorker) (pc : LogPc) : CacheSystem :=
  { s with worker := some { w with pc := pc } }

/-- `begin_op`; not enabled while it sleeps. -/
def beginOp (s : CacheSystem) : Option CacheSystem :=
  if s.committing then none
  else if logsize < s.lh.length + (s.outstanding + 1) * maxopblocks then none
  else some { s with outstanding := s.outstanding + 1 }

/-- `end_op` up to the call of `commit`, whose test `log.lh.n > 0` is
included; there is no next state where it panics. -/
def endOp (s : CacheSystem) (pid : Pid) : Option CacheSystem :=
  let s := { s with outstanding := s.outstanding - 1 }
  if s.committing then none
  else if s.outstanding = 0 then
    let s := { s with committing := true }
    if 0 < s.lh.length then
      some (s.goto ⟨pid, false, .finish⟩ (.copyLog .toLog 0 .get))
    else some (s.goto ⟨pid, false, .finish⟩ .finish)
  else some s

/-- The tests that `log_write` makes before it acquires `log.lock`; there is no
next state where it panics. -/
def logWrite (g : Layout) (s : CacheSystem) (pid : Pid) (i : Slot) :
    Option CacheSystem :=
  if logsize ≤ s.lh.length ∨ g.log.size - 1 ≤ s.lh.length then none
  else if s.outstanding < 1 then none
  else some { s with appending := (pid, i) :: s.appending }

/-- One step of a `bread` by the worker. -/
def breadStep (g : Layout) (s : CacheSystem) (w : LogWorker) (blockno : Nat)
    (again : BreadPc → LogPc) (done : Slot → LogPc) :
    BreadPc → Option CacheSystem
  | .get =>
      (s.bget w.pid rootdev blockno).map fun (i, s) =>
        s.goto w (again (.lock i))
  | .lock i =>
      (s.acquire ⟨w.pid, i, rootdev, blockno⟩).map fun s =>
        s.goto w (again (.fill i))
  | .fill i =>
      (s.finishBread g ⟨w.pid, i, rootdev, blockno⟩).map fun s =>
        s.goto w (done i)

/-- The loop test of `write_log` and `install_trans`, and what follows the
loop. -/
def copyTest (s : CacheSystem) (w : LogWorker) (kind : CopyKind) (tail : Nat) :
    CacheSystem :=
  if tail < s.lh.length then s.goto w (.copyLog kind tail .get)
  else
    match kind with
    | .toLog => s.goto w (.head .commit .get)
    | .toHome => { s with lh := [] }.goto w (.head .clear .get)

/-- One step of `commit` or `recover_from_log`. -/
def workStep (g : Layout) (s : CacheSystem) (w : LogWorker) :
    Option CacheSystem :=
  match w.pc with
  | .head kind bread =>
      s.breadStep g w g.log.start (.head kind) (.headData kind) bread
  | .headData .read i =>
      some ({ s with lh := headerEntries (s.buf i).data }.goto w
        (.headRelse .read i))
  | .headData kind i =>
      let header := headerBlock (s.buf i).data s.lh
      some ((s.setData i header).goto w (.headWrite kind i))
  | .headWrite kind i =>
      (s.bwrite g w.pid i).map fun s => s.goto w (.headRelse kind i)
  | .headRelse kind i =>
      (s.brelse w.pid i).map fun s =>
        match kind with
        | .clear => s.goto w .finish
        | _ => s.copyTest w .toHome 0
  | .copyLog kind tail bread =>
      s.breadStep g w (g.log.logBlock tail) (.copyLog kind tail)
        (fun lbuf => .copyHome kind tail lbuf .get) bread
  | .copyHome kind tail lbuf bread =>
      s.breadStep g w (s.lh.getD tail 0) (.copyHome kind tail lbuf)
        (.copyData kind tail lbuf) bread
  | .copyData kind tail lbuf dbuf =>
      let data := (s.buf (LogSystem.copySource kind lbuf dbuf)).data
      some ((s.setData (LogSystem.copyTarget kind lbuf dbuf) data).goto w
        (.copyWrite kind tail lbuf dbuf))
  | .copyWrite kind tail lbuf dbuf =>
      (s.bwrite g w.pid (LogSystem.copyTarget kind lbuf dbuf)).map fun s =>
        s.goto w (.copyRelseSource kind tail lbuf dbuf)
  | .copyRelseSource kind tail lbuf dbuf =>
      (s.brelse w.pid (LogSystem.copySource kind lbuf dbuf)).map fun s =>
        s.goto w (.copyRelseTarget kind tail lbuf dbuf)
  | .copyRelseTarget kind tail lbuf dbuf =>
      (s.brelse w.pid (LogSystem.copyTarget kind lbuf dbuf)).map fun s =>
        s.copyTest w kind (tail + 1)
  | .finish => some { s with committing := false, worker := none }

end CacheSystem

/-- The steps of the processes and of the one inside `commit` or
`recover_from_log`. -/
inductive Label where
  | bget (pid : Pid) (dev blockno : Nat)
  | acquire (r : Request)
  | finishBread (r : Request)
  | modify (pid : Pid) (i : Slot) (data : Block)
  | logWrite (pid : Pid) (i : Slot)
  | logAppend (pid : Pid) (i : Slot)
  | bwrite (pid : Pid) (i : Slot)
  | brelse (pid : Pid) (i : Slot)
  | unref (i : Slot)
  | beginOp (pid : Pid)
  | endOp (pid : Pid)
  | work

namespace CacheSystem

/-- One step.  A process changes a buffer only while it holds the lock, and
stores what it changed before it releases the lock. -/
def step (g : Layout) (s : CacheSystem) : Label → Option CacheSystem
  | .bget pid dev blockno =>
      if s.Ready pid then (s.bget pid dev blockno).map Prod.snd else none
  | .acquire r => if s.Client r.pid then s.acquire r else none
  | .finishBread r => if s.Client r.pid then s.finishBread g r else none
  | .modify pid i data =>
      if s.Ready pid ∧ (s.buf i).owner = some pid then some (s.setData i data)
      else none
  | .logWrite pid i =>
      if s.Ready pid ∧ (s.buf i).owner = some pid then s.logWrite g pid i
      else none
  | .logAppend pid i =>
      if s.Client pid ∧ (pid, i) ∈ s.appending then some (s.logAppend pid i)
      else none
  | .bwrite pid i => if s.Ready pid then s.bwrite g pid i else none
  | .brelse pid i =>
      if s.Ready pid ∧ i ∉ s.changed then s.brelse pid i else none
  | .unref i => s.unref i
  | .beginOp pid => if s.Ready pid then s.beginOp else none
  | .endOp pid =>
      if s.Ready pid ∧ 0 < s.outstanding then s.endOp pid else none
  | .work => s.worker.bind (s.workStep g)

end CacheSystem

/-- The kernel after `binit`: either the first process is about to call
`recover_from_log`, or the log is empty and nobody has called anything. -/
structure Start (s : CacheSystem) : Prop where
  cache : s.cache = LinkedCache.binit
  waiting : s.waiting = []
  reading : s.reading = []
  appending : s.appending = []
  releasing : s.releasing = []
  changed : s.changed = []
  worker : ∀ w ∈ s.worker, w.pc = .head .read .get
  stored : s.stored = s.disk
  breads : s.breads = []

end Xv6.Coherence
