import Mathlib.Data.List.Count
import Mathlib.Data.List.Perm.Basic
import Mathlib.Logic.Function.Basic
import Xv6.ByteFields

/-!
# The buffer cache

The cache of `bio.c` over a disk of 512-byte blocks.  The buffers are slots;
`order` is the list through `next` and `prev` from the most recently used one.
`bget` takes a reference and then waits for the sleep-lock, so a process that
waits is recorded apart from the owner of the lock.
-/

namespace Xv6

open ByteFields

/-- Process identifiers. -/
abbrev Pid := Nat

/-- `BSIZE` -/
abbrev bsize : Nat := 512

/-- `NBUF` -/
abbrev nbuf : Nat := 30

/-- `FSSIZE` -/
abbrev fssize : Nat := 1000

/-- `ROOTDEV` -/
abbrev rootdev : Nat := 1

/-- The contents of a disk block. -/
abbrev Block := Bytes bsize

/-- The disk: each write of one block is atomic. -/
abbrev Disk := Nat → Block

/-- An entry of `bcache.buf`. -/
abbrev Slot := Fin nbuf

/-- `struct buf`; `owner` is the holder of its sleep-lock. -/
structure Buf where
  valid : Bool
  dirty : Bool
  dev : Nat
  blockno : Nat
  refcnt : Nat
  owner : Option Pid
  data : Block

/-- `bcache` -/
structure Bcache where
  buf : Slot → Buf
  order : List Slot

/-- `binit`: each buffer is put at the head of the list in turn. -/
def binit : Bcache where
  buf := fun _ => ⟨false, false, 0, 0, 0, none, fun _ => 0⟩
  order := (List.finRange nbuf).reverse

namespace Bcache

/-- Replace one buffer. -/
def modify (c : Bcache) (i : Slot) (f : Buf → Buf) : Bcache :=
  { c with buf := Function.update c.buf i (f (c.buf i)) }

/-- The first loop of `bget`: is the block already cached? -/
def lookup (c : Bcache) (dev blockno : Nat) : Option Slot :=
  c.order.find? fun i =>
    (c.buf i).dev == dev && (c.buf i).blockno == blockno

/-- The second loop of `bget`: the least recently used free buffer. -/
def victim (c : Bcache) : Option Slot :=
  c.order.reverse.find? fun i => (c.buf i).refcnt == 0 && !(c.buf i).dirty

/-- `bget` up to the release of `bcache.lock`; `none` is the panic
"bget: no buffers". -/
def bget (c : Bcache) (dev blockno : Nat) : Option (Slot × Bcache) :=
  match c.lookup dev blockno with
  | some i =>
      some (i, c.modify i fun b => { b with refcnt := b.refcnt + 1 })
  | none =>
      match c.victim with
      | some i =>
          some (i, c.modify i fun b =>
            { b with
              dev := dev
              blockno := blockno
              valid := false
              dirty := false
              refcnt := 1 })
      | none => none

/-- `brelse` under `bcache.lock`: a buffer without references moves to the head of
the list. -/
def unref (c : Bcache) (i : Slot) : Bcache :=
  let c := c.modify i fun b => { b with refcnt := b.refcnt - 1 }
  if (c.buf i).refcnt = 0 then { c with order := i :: c.order.erase i } else c

end Bcache

/-- The disk, the cache, the processes asleep in `acquiresleep` on a buffer, and
those in `brelse` that have released the lock of a buffer but not their
reference. -/
structure IoState where
  disk : Disk
  cache : Bcache
  waiting : List (Pid × Slot)
  releasing : List (Pid × Slot)

namespace IoState

/-- The buffer in a slot. -/
def buf (io : IoState) (i : Slot) : Buf :=
  io.cache.buf i

/-- Replace one buffer. -/
def modify (io : IoState) (i : Slot) (f : Buf → Buf) : IoState :=
  { io with cache := io.cache.modify i f }

/-- `bget`, up to its `acquiresleep`; `none` is the panic. -/
def bget (io : IoState) (pid : Pid) (blockno : Nat) :
    Option (Slot × IoState) :=
  match io.cache.bget rootdev blockno with
  | some (i, cache) =>
      some (i, { io with cache := cache, waiting := (pid, i) :: io.waiting })
  | none => none

/-- `acquiresleep` on a buffer; `none` while the lock is held. -/
def acquire (io : IoState) (pid : Pid) (i : Slot) : Option IoState :=
  if (pid, i) ∈ io.waiting ∧ (io.buf i).owner = none then
    some
      { io with
        cache := io.cache.modify i fun b => { b with owner := some pid }
        waiting := io.waiting.erase (pid, i) }
  else none

/-- `iderw` on a buffer that is not valid; `none` is the panic
"incorrect blockno". -/
def fill (io : IoState) (i : Slot) : Option IoState :=
  if (io.buf i).blockno < fssize then
    some (io.modify i fun b =>
      { b with data := io.disk b.blockno, valid := true })
  else none

/-- `bwrite`; `none` is the panic "incorrect blockno". -/
def bwrite (io : IoState) (i : Slot) : Option IoState :=
  if (io.buf i).blockno < fssize then
    some
      { io with
        cache := io.cache.modify i fun b =>
          { b with valid := true, dirty := false }
        disk := Function.update io.disk (io.buf i).blockno (io.buf i).data }
  else none

/-- `brelse` up to its `releasesleep`. -/
def brelse (io : IoState) (pid : Pid) (i : Slot) : IoState :=
  { io.modify i fun b => { b with owner := none } with
    releasing := (pid, i) :: io.releasing }

/-- The rest of `brelse`; `none` if the process is not there. -/
def unref (io : IoState) (pid : Pid) (i : Slot) : Option IoState :=
  if (pid, i) ∈ io.releasing then
    some
      { io with
        cache := io.cache.unref i
        releasing := io.releasing.erase (pid, i) }
  else none

/-- The processes with a reference to a buffer but not its lock. -/
def referring (io : IoState) : List (Pid × Slot) :=
  io.waiting ++ io.releasing

/-- How many references to a buffer they have. -/
def refs (io : IoState) (i : Slot) : Nat :=
  (io.referring.map Prod.snd).count i

theorem refs_eq (io : IoState) (i : Slot) :
    io.refs i = (io.waiting.map Prod.snd).count i + (io.releasing.map Prod.snd).count i := by
  rw [refs, referring, List.map_append, List.count_append]

/-- A store to `b->data`. -/
def setData (io : IoState) (i : Slot) (data : Block) : IoState :=
  io.modify i fun b => { b with data := data }

/-- `b->flags |= B_DIRTY` -/
def setDirty (io : IoState) (i : Slot) : IoState :=
  io.modify i fun b => { b with dirty := true }

@[simp]
theorem modify_buf (io : IoState) (i j : Slot) (f : Buf → Buf) :
    (io.modify i f).buf j = if j = i then f (io.buf i) else io.buf j := by
  simp only [modify, buf, Bcache.modify, Function.update_apply]

@[simp]
theorem modify_disk (io : IoState) (i : Slot) (f : Buf → Buf) :
    (io.modify i f).disk = io.disk :=
  rfl

@[simp]
theorem modify_waiting (io : IoState) (i : Slot) (f : Buf → Buf) :
    (io.modify i f).waiting = io.waiting :=
  rfl

@[simp]
theorem modify_refs (io : IoState) (i j : Slot) (f : Buf → Buf) :
    (io.modify i f).refs j = io.refs j :=
  rfl

@[simp]
theorem modify_order (io : IoState) (i : Slot) (f : Buf → Buf) :
    (io.modify i f).cache.order = io.cache.order :=
  rfl

end IoState

theorem IoState.acquire_eq_some {io io' : IoState} {pid : Pid} {i : Slot}
    (acquired : io.acquire pid i = some io') :
    ((pid, i) ∈ io.waiting ∧ (io.buf i).owner = none) ∧
      io'.waiting = io.waiting.erase (pid, i) ∧ io'.releasing = io.releasing ∧
      io'.disk = io.disk ∧ (∀ j, j ≠ i → io'.buf j = io.buf j) ∧
      io'.buf i = { io.buf i with owner := some pid } := by
  unfold acquire at acquired
  split at acquired
  · rename_i free
    cases acquired
    refine ⟨free, rfl, rfl, rfl, fun j here => ?_, ?_⟩
    · simp [buf, Bcache.modify, here]
    · simp [buf, Bcache.modify]
  · cases acquired

theorem IoState.fill_eq_some {io io' : IoState} {i : Slot}
    (filled : io.fill i = some io') :
    (io.buf i).blockno < fssize ∧ io'.waiting = io.waiting ∧
      io'.disk = io.disk ∧ (∀ j, j ≠ i → io'.buf j = io.buf j) ∧
      io'.buf i =
        { io.buf i with data := io.disk (io.buf i).blockno, valid := true } := by
  unfold fill at filled
  split at filled
  · rename_i bounded
    cases filled
    refine ⟨bounded, rfl, rfl, fun j here => ?_, ?_⟩
    · simp [here]
    · simp
  · cases filled

theorem IoState.bwrite_eq_some {io io' : IoState} {i : Slot}
    (wrote : io.bwrite i = some io') :
    (io.buf i).blockno < fssize ∧ io'.waiting = io.waiting ∧
      io'.disk =
        Function.update io.disk (io.buf i).blockno (io.buf i).data ∧
      (∀ j, j ≠ i → io'.buf j = io.buf j) ∧
      io'.buf i = { io.buf i with valid := true, dirty := false } := by
  unfold bwrite at wrote
  split at wrote
  · rename_i bounded
    cases wrote
    refine ⟨bounded, rfl, rfl, fun j here => ?_, ?_⟩
    · simp [buf, Bcache.modify, here]
    · simp [buf, Bcache.modify]
  · cases wrote

theorem IoState.brelse_buf (io : IoState) (pid : Pid) (i : Slot) :
    (∀ j, j ≠ i → (io.brelse pid i).buf j = io.buf j) ∧
      (io.brelse pid i).buf i = { io.buf i with owner := none } := by
  refine ⟨fun j here => ?_, ?_⟩
  · simp [brelse, buf, modify, Bcache.modify, here]
  · simp [brelse, buf, modify, Bcache.modify]

theorem IoState.unref_eq_some {io io' : IoState} {pid : Pid} {i : Slot}
    (released : io.unref pid i = some io') :
    (pid, i) ∈ io.releasing ∧ io'.waiting = io.waiting ∧
      io'.releasing = io.releasing.erase (pid, i) ∧ io'.disk = io.disk ∧
      (∀ j, j ≠ i → io'.buf j = io.buf j) ∧
      io'.buf i = { io.buf i with refcnt := (io.buf i).refcnt - 1 } := by
  unfold unref at released
  split at released
  · rename_i member
    cases released
    unfold buf Bcache.unref
    simp only
    refine ⟨member, trivial, trivial, trivial, fun j here => ?_, ?_⟩
    · split <;> simp [Bcache.modify, here]
    · split <;> simp [Bcache.modify]
  · cases released

theorem count_snd_cons (entries : List (Pid × Slot)) (pid : Pid) (i j : Slot) :
    (((pid, i) :: entries).map Prod.snd).count j =
      (entries.map Prod.snd).count j + if i = j then 1 else 0 := by
  rw [List.map_cons, List.count_cons]
  simp only [beq_iff_eq]

theorem count_snd_erase {entries : List (Pid × Slot)} {pid : Pid} {i : Slot}
    (member : (pid, i) ∈ entries) (j : Slot) :
    (entries.map Prod.snd).count j =
      ((entries.erase (pid, i)).map Prod.snd).count j + if i = j then 1 else 0 := by
  rw [((List.perm_cons_erase member).map Prod.snd).count_eq, count_snd_cons]

/-- What holds of one buffer.  `loose` holds of the buffers whose contents
have been changed since they were last written or logged, and `pinned` lists
the blocks that the log keeps in the cache. -/
structure SlotOk (io : IoState) (loose : Slot → Prop) (pinned : List Nat)
    (i : Slot) : Prop where
  refcnt : (io.buf i).refcnt = (io.buf i).owner.toList.length + io.refs i
  device : (io.buf i).dev = rootdev ∨ (io.buf i).refcnt = 0 ∧
    (io.buf i).valid = false
  bounded : (io.buf i).valid = true → (io.buf i).blockno < fssize
  clean : (io.buf i).valid = true → (io.buf i).dirty = false →
    ¬ loose i → (io.buf i).data = io.disk (io.buf i).blockno
  dirty_valid : (io.buf i).dirty = true → (io.buf i).valid = true
  dirty_iff : (io.buf i).dirty = true ↔
    (io.buf i).dev = rootdev ∧ (io.buf i).blockno ∈ pinned
  owned : loose i → (io.buf i).owner ≠ none

/-- The cache invariant: every buffer is as `SlotOk` says, no block has two
buffers, and the pinned blocks are cached. -/
structure IoOk (io : IoState) (loose : Slot → Prop) (pinned : List Nat) :
    Prop where
  order : io.cache.order.Perm (List.finRange nbuf)
  slot : ∀ i, SlotOk io loose pinned i
  unique : ∀ i j, (io.buf i).dev = rootdev → (io.buf j).dev = rootdev →
    (io.buf i).blockno = (io.buf j).blockno → i = j
  cached : ∀ b ∈ pinned, ∃ i, (io.buf i).dirty = true ∧
    (io.buf i).blockno = b

/-- The process holds the lock of the buffer of a block. -/
structure Holds (io : IoState) (pid : Pid) (i : Slot) (blockno : Nat) :
    Prop where
  owner : (io.buf i).owner = some pid
  dev : (io.buf i).dev = rootdev
  blockno : (io.buf i).blockno = blockno

/-- The process has a reference to the buffer of a block and waits for its
lock. -/
structure Waits (io : IoState) (pid : Pid) (i : Slot) (blockno : Nat) :
    Prop where
  waiting : (pid, i) ∈ io.waiting
  dev : (io.buf i).dev = rootdev
  blockno : (io.buf i).blockno = blockno

/-- The disk, the buffers that a process owns and the contents of the dirty
ones do not change. -/
structure Keeps (pid : Pid) (io io' : IoState) : Prop where
  disk : io'.disk = io.disk
  owned : ∀ i, (io.buf i).owner = some pid →
    (io'.buf i).owner = some pid ∧ (io'.buf i).dev = (io.buf i).dev ∧
      (io'.buf i).blockno = (io.buf i).blockno ∧
      (io'.buf i).valid = (io.buf i).valid ∧
      (io'.buf i).data = (io.buf i).data
  dirty : ∀ i, (io'.buf i).dirty = true → (io.buf i).dirty = true ∧
    (io'.buf i).blockno = (io.buf i).blockno ∧
    (io'.buf i).data = (io.buf i).data

theorem Keeps.holds {pid : Pid} {io io' : IoState} (keeps : Keeps pid io io')
    {i : Slot} {b : Nat} (holds : Holds io pid i b) : Holds io' pid i b := by
  obtain ⟨owner, dev, blockno, _, _⟩ := keeps.owned i holds.owner
  exact ⟨owner, dev.trans holds.dev, blockno.trans holds.blockno⟩

namespace Bcache

theorem lookup_eq_some {c : Bcache} {dev blockno : Nat} {i : Slot}
    (found : c.lookup dev blockno = some i) :
    (c.buf i).dev = dev ∧ (c.buf i).blockno = blockno := by
  have := List.find?_some found
  simpa using this

theorem lookup_eq_none {c : Bcache} {dev blockno : Nat}
    (complete : ∀ i, i ∈ c.order) (missing : c.lookup dev blockno = none)
    (i : Slot) (sameDev : (c.buf i).dev = dev) :
    (c.buf i).blockno ≠ blockno := by
  have := List.find?_eq_none.mp missing i (complete i)
  simpa [sameDev] using this

theorem victim_eq_some {c : Bcache} {i : Slot} (found : c.victim = some i) :
    (c.buf i).refcnt = 0 ∧ (c.buf i).dirty = false := by
  have := List.find?_some found
  simpa using this

/-- What `bget` does: it takes a reference to the cached buffer, or gives a
free buffer a new identity. -/
theorem bget_cases {c c' : Bcache} {dev blockno : Nat} {i : Slot}
    (got : c.bget dev blockno = some (i, c')) :
    ((c.buf i).dev = dev ∧ (c.buf i).blockno = blockno ∧
        c' = c.modify i fun b => { b with refcnt := b.refcnt + 1 }) ∨
      (c.lookup dev blockno = none ∧ (c.buf i).refcnt = 0 ∧
        (c.buf i).dirty = false ∧
        c' = c.modify i fun b =>
          { b with dev := dev, blockno := blockno, valid := false,
                   dirty := false, refcnt := 1 }) := by
  unfold bget at got
  split at got
  · rename_i found
    cases got
    obtain ⟨sameDev, sameBlock⟩ := lookup_eq_some found
    exact .inl ⟨sameDev, sameBlock, rfl⟩
  · rename_i missing
    split at got
    · rename_i found
      cases got
      obtain ⟨free, clean⟩ := victim_eq_some found
      exact .inr ⟨missing, free, clean, rfl⟩
    · cases got

end Bcache

namespace IoOk

variable {io io' : IoState} {loose loose' : Slot → Prop}
  {pinned pinned' : List Nat} {i : Slot} {pid : Pid} {b : Nat}

theorem mem_order (ok : IoOk io loose pinned) (i : Slot) :
    i ∈ io.cache.order :=
  ok.order.mem_iff.mpr (List.mem_finRange i)

theorem refcnt_pos_of_owner (ok : IoOk io loose pinned)
    (held : (io.buf i).owner ≠ none) : 0 < (io.buf i).refcnt := by
  obtain ⟨pid, owner⟩ := Option.ne_none_iff_exists'.mp held
  rw [(ok.slot i).refcnt, owner, Option.toList_some, List.length_singleton]
  omega

theorem refcnt_pos_of_waiting (ok : IoOk io loose pinned)
    (waiting : (pid, i) ∈ io.waiting) : 0 < (io.buf i).refcnt := by
  have : 0 < (io.waiting.map Prod.snd).count i :=
    List.count_pos_iff.mpr (List.mem_map.mpr ⟨_, waiting, rfl⟩)
  rw [(ok.slot i).refcnt, IoState.refs_eq]
  omega

theorem dev_of_refcnt_pos (ok : IoOk io loose pinned)
    (used : 0 < (io.buf i).refcnt) : (io.buf i).dev = rootdev := by
  rcases (ok.slot i).device with dev | ⟨free, _⟩
  · exact dev
  · omega

theorem dev_of_dirty (ok : IoOk io loose pinned)
    (dirty : (io.buf i).dirty = true) : (io.buf i).dev = rootdev :=
  ((ok.slot i).dirty_iff.mp dirty).1

/-- A block that the log pins is in the cache. -/
theorem not_pinned_of_lookup (ok : IoOk io loose pinned)
    (missing : io.cache.lookup rootdev b = none) : b ∉ pinned := by
  intro mem
  obtain ⟨i, dirty, same⟩ := ok.cached b mem
  exact Bcache.lookup_eq_none ok.mem_order missing i (ok.dev_of_dirty dirty)
    same

/-- A change of one buffer keeps the invariant when the changed buffer meets
it and nothing else is affected. -/
theorem of_slot (ok : IoOk io loose pinned)
    (order : io'.cache.order.Perm io.cache.order)
    (same : ∀ j, j ≠ i → io'.buf j = io.buf j)
    (disk : ∀ j, j ≠ i → (io.buf j).dev = rootdev →
      io'.disk (io.buf j).blockno = io.disk (io.buf j).blockno)
    (count : ∀ j, j ≠ i → io'.refs j = io.refs j)
    (looseSame : ∀ j, j ≠ i → (loose' j ↔ loose j))
    (pinnedSame : ∀ j, j ≠ i → (io.buf j).dev = rootdev →
      ((io.buf j).blockno ∈ pinned' ↔ (io.buf j).blockno ∈ pinned))
    (changed : SlotOk io' loose' pinned' i)
    (apart : ∀ j, j ≠ i → (io'.buf i).dev = rootdev →
      (io.buf j).dev = rootdev → (io.buf j).blockno ≠ (io'.buf i).blockno)
    (cached : ∀ b ∈ pinned',
      ((io'.buf i).dirty = true ∧ (io'.buf i).blockno = b) ∨
        b ∈ pinned ∧ ((io.buf i).dirty = true → (io.buf i).blockno ≠ b)) :
    IoOk io' loose' pinned' := by
  refine ⟨order.trans ok.order, ?_, ?_, ?_⟩
  · intro j
    by_cases here : j = i
    · exact here ▸ changed
    · have old := ok.slot j
      have sameBuf := same j here
      refine ⟨?_, ?_, ?_, ?_, ?_, ?_, ?_⟩
      · rw [sameBuf, count j here]
        exact old.refcnt
      · rw [sameBuf]
        exact old.device
      · rw [sameBuf]
        exact old.bounded
      · rw [sameBuf, looseSame j here]
        intro valid dirty tight
        rcases old.device with dev | ⟨_, invalid⟩
        · rw [disk j here dev]
          exact old.clean valid dirty tight
        · rw [invalid] at valid
          cases valid
      · rw [sameBuf]
        exact old.dirty_valid
      · rw [sameBuf, old.dirty_iff]
        exact and_congr_right fun dev => (pinnedSame j here dev).symm
      · rw [sameBuf, looseSame j here]
        exact old.owned
  · intro j k jDev kDev eq
    by_cases jHere : j = i
    · by_cases kHere : k = i
      · rw [jHere, kHere]
      · subst jHere
        rw [same k kHere] at kDev eq
        exact absurd eq.symm (apart k kHere jDev kDev)
    · rw [same j jHere] at jDev eq
      by_cases kHere : k = i
      · subst kHere
        exact absurd eq (apart j jHere kDev jDev)
      · rw [same k kHere] at kDev eq
        exact ok.unique j k jDev kDev eq
  · intro b mem
    rcases cached b mem with here | ⟨was, elsewhere⟩
    · exact ⟨i, here⟩
    · obtain ⟨j, dirty, blockno⟩ := ok.cached b was
      have apart : j ≠ i := by
        rintro rfl
        exact elsewhere dirty blockno
      exact ⟨j, by rw [same j apart]; exact ⟨dirty, blockno⟩⟩

/-- `of_slot` for a change that keeps the identity of the buffer and the
pinned blocks. -/
theorem of_same_identity (ok : IoOk io loose pinned)
    (order : io'.cache.order.Perm io.cache.order)
    (same : ∀ j, j ≠ i → io'.buf j = io.buf j)
    (disk : io'.disk = io.disk)
    (count : ∀ j, j ≠ i → io'.refs j = io.refs j)
    (looseSame : ∀ j, j ≠ i → (loose' j ↔ loose j))
    (dev : (io'.buf i).dev = (io.buf i).dev)
    (blockno : (io'.buf i).blockno = (io.buf i).blockno)
    (dirty : (io'.buf i).dirty = (io.buf i).dirty)
    (changed : SlotOk io' loose' pinned i) : IoOk io' loose' pinned := by
  refine ok.of_slot order same (fun _ _ _ => by rw [disk]) count looseSame
    (fun _ _ _ => Iff.rfl) changed ?_ ?_
  · intro j here iDev jDev eq
    rw [dev] at iDev
    rw [blockno] at eq
    exact here (ok.unique j i jDev iDev eq)
  · intro b mem
    by_cases here : (io.buf i).dirty = true ∧ (io.buf i).blockno = b
    · exact .inl (by rw [dirty, blockno]; exact here)
    · exact .inr ⟨mem, fun isDirty eq => here ⟨isDirty, eq⟩⟩

theorem setData (ok : IoOk io loose pinned) (data : Block)
    (held : (io.buf i).owner ≠ none) :
    IoOk (io.setData i data) (fun j => loose j ∨ j = i) pinned := by
  have old := ok.slot i
  refine ok.of_same_identity (i := i) (.refl _) ?_ rfl (fun _ _ => rfl) ?_ ?_
    ?_ ?_ ?_
  · intro j here
    simp [IoState.setData, here]
  · intro j here
    simp [here]
  · simp [IoState.setData]
  · simp [IoState.setData]
  · simp [IoState.setData]
  · constructor <;> simp only [IoState.setData, IoState.modify_buf, if_true]
    · exact old.refcnt
    · exact old.device
    · exact old.bounded
    · intro _ _ tight
      exact absurd (.inr trivial) tight
    · exact old.dirty_valid
    · exact old.dirty_iff
    · exact fun _ => held

/-- `bget` keeps the invariant: a recycled buffer is neither owned nor pinned
and starts out invalid. -/
theorem bget (ok : IoOk io loose pinned)
    (got : io.bget pid b = some (i, io')) : IoOk io' loose pinned := by
  have old := ok.slot i
  unfold IoState.bget at got
  split at got
  · rename_i slot cache gotCache
    cases got
    have counts (c : Bcache) (j : Slot) :
        (IoState.mk io.disk c ((pid, i) :: io.waiting) io.releasing).refs j =
          io.refs j + if i = j then 1 else 0 := by
      simp only [IoState.refs_eq, count_snd_cons]
      omega
    have others (c : Bcache) (j : Slot) (here : j ≠ i) :
        (IoState.mk io.disk c ((pid, i) :: io.waiting) io.releasing).refs j =
          io.refs j := by
      rw [counts, if_neg (Ne.symm here), Nat.add_zero]
    rcases Bcache.bget_cases gotCache with
      ⟨sameDev, sameBlock, rfl⟩ | ⟨missing, free, clean, rfl⟩
    · refine ok.of_same_identity (i := i) (.refl _) ?_ rfl (others _)
        (fun _ _ => Iff.rfl) ?_ ?_ ?_ ?_
      · intro j here
        simp [IoState.buf, Bcache.modify, here]
      all_goals try simp [IoState.buf, Bcache.modify]; done
      constructor <;>
        simp only [IoState.buf, Bcache.modify, Function.update_self]
      · have := old.refcnt
        simp only [IoState.buf] at this
        rw [counts, if_pos rfl]
        omega
      · exact .inl sameDev
      · exact old.bounded
      · exact old.clean
      · exact old.dirty_valid
      · exact old.dirty_iff
      · exact old.owned
    · have unowned : (io.buf i).owner = none := by
        by_contra held
        have := ok.refcnt_pos_of_owner held
        simp only [IoState.buf] at this
        omega
      refine ok.of_slot (i := i) (.refl _) ?_ (fun _ _ _ => rfl) (others _)
        (fun _ _ => Iff.rfl) (fun _ _ _ => Iff.rfl) ?_ ?_ ?_
      · intro j here
        simp [IoState.buf, Bcache.modify, here]
      · constructor <;>
          simp only [IoState.buf, Bcache.modify, Function.update_self]
        · have := old.refcnt
          simp only [IoState.buf] at this unowned
          rw [unowned] at this ⊢
          rw [counts, if_pos rfl]
          omega
        · exact .inl trivial
        · simp
        · simp
        · simp
        · simpa using ok.not_pinned_of_lookup missing
        · exact old.owned
      · intro j here _ jDev
        simpa [IoState.buf, Bcache.modify] using
          Bcache.lookup_eq_none ok.mem_order missing j jDev
      · intro b mem
        refine .inr ⟨mem, fun dirty => ?_⟩
        simp only [IoState.buf] at dirty
        rw [clean] at dirty
        cases dirty
  · cases got

theorem acquire (ok : IoOk io loose pinned)
    (acquired : io.acquire pid i = some io') : IoOk io' loose pinned := by
  have old := ok.slot i
  have order : io'.cache.order = io.cache.order := by
    unfold IoState.acquire at acquired
    split at acquired
    · cases acquired
      rfl
    · cases acquired
  obtain ⟨⟨mem, unowned⟩, waiting, releasing, disk, same, changed⟩ :=
    IoState.acquire_eq_some acquired
  have counts (j : Slot) : io.refs j = io'.refs j + if i = j then 1 else 0 := by
    rw [IoState.refs_eq, IoState.refs_eq, count_snd_erase mem, waiting, releasing]
    omega
  refine ok.of_same_identity (i := i) (.of_eq order) same disk ?_
    (fun _ _ => Iff.rfl) ?_ ?_ ?_ ?_
  · intro j here
    simpa [Ne.symm here] using (counts j).symm
  · rw [changed]
  · rw [changed]
  · rw [changed]
  · constructor <;> rw [changed]
    · have total := old.refcnt
      have count := counts i
      rw [unowned] at total
      simp only [Option.toList_none, Option.toList_some, List.length_nil,
        List.length_singleton, if_true] at total count ⊢
      omega
    · exact old.device
    · exact old.bounded
    · rw [disk]
      exact old.clean
    · exact old.dirty_valid
    · exact old.dirty_iff
    · simp

theorem fill (ok : IoOk io loose pinned) (held : (io.buf i).owner ≠ none)
    (filled : io.fill i = some io') : IoOk io' loose pinned := by
  have old := ok.slot i
  have dev := ok.dev_of_refcnt_pos (ok.refcnt_pos_of_owner held)
  unfold IoState.fill at filled
  split at filled
  · rename_i bounded
    cases filled
    refine ok.of_same_identity (i := i) (.refl _) ?_ rfl (fun _ _ => rfl)
      (fun _ _ => Iff.rfl) ?_ ?_ ?_ ?_
    · intro j here
      simp [here]
    · simp
    · simp
    · simp
    · constructor <;> simp only [IoState.modify_buf, if_true]
      · exact old.refcnt
      · exact .inl dev
      · exact fun _ => bounded
      · exact fun _ _ _ => rfl
      · exact fun _ => trivial
      · exact old.dirty_iff
      · exact old.owned
  · cases filled

/-- `bwrite` makes the disk agree with the buffer, which is then neither loose
nor pinned. -/
theorem bwrite (ok : IoOk io loose pinned) (held : (io.buf i).owner ≠ none)
    (wrote : io.bwrite i = some io')
    (looseSame : ∀ j, j ≠ i → (loose' j ↔ loose j)) (tight : ¬ loose' i)
    (pinnedIff : ∀ b, b ∈ pinned' ↔ b ∈ pinned ∧ b ≠ (io.buf i).blockno) :
    IoOk io' loose' pinned' := by
  have old := ok.slot i
  have dev := ok.dev_of_refcnt_pos (ok.refcnt_pos_of_owner held)
  unfold IoState.bwrite at wrote
  split at wrote
  · rename_i bounded
    cases wrote
    have apart (j : Slot) (here : j ≠ i) (jDev : (io.buf j).dev = rootdev) :
        (io.buf j).blockno ≠ (io.buf i).blockno :=
      fun eq => here (ok.unique j i jDev dev eq)
    refine ok.of_slot (i := i) (.refl _) ?_ ?_ (fun _ _ => rfl) looseSame
      ?_ ?_ ?_ ?_
    · intro j here
      simp [IoState.buf, Bcache.modify, here]
    · intro j here jDev
      exact Function.update_of_ne (apart j here jDev) _ _
    · intro j here jDev
      rw [pinnedIff]
      exact and_iff_left (apart j here jDev)
    · constructor <;>
        simp only [IoState.buf, Bcache.modify, Function.update_self]
      · exact old.refcnt
      · exact .inl dev
      · exact fun _ => bounded
      · exact fun _ _ _ => trivial
      · simp
      · simp [pinnedIff, IoState.buf]
      · exact fun loose => absurd loose tight
    · intro j here _ jDev
      simpa [IoState.buf, Bcache.modify] using apart j here jDev
    · intro b mem
      obtain ⟨was, other⟩ := (pinnedIff b).mp mem
      exact .inr ⟨was, fun _ => Ne.symm other⟩
  · cases wrote

/-- `log_write` pins the buffer. -/
theorem setDirty (ok : IoOk io loose pinned) (valid : (io.buf i).valid = true)
    (held : (io.buf i).owner ≠ none)
    (looseSame : ∀ j, j ≠ i → (loose' j ↔ loose j))
    (pinnedIff : ∀ b, b ∈ pinned' ↔ b ∈ pinned ∨ b = (io.buf i).blockno) :
    IoOk (io.setDirty i) loose' pinned' := by
  have old := ok.slot i
  have dev := ok.dev_of_refcnt_pos (ok.refcnt_pos_of_owner held)
  refine ok.of_slot (i := i) (.refl _) ?_ (fun _ _ _ => rfl) (fun _ _ => rfl)
    looseSame ?_ ?_ ?_ ?_
  · intro j here
    simp [IoState.setDirty, here]
  · intro j here jDev
    rw [pinnedIff]
    exact or_iff_left fun eq => here (ok.unique j i jDev dev eq)
  · constructor <;> simp only [IoState.setDirty, IoState.modify_buf, if_true]
    · exact old.refcnt
    · exact .inl dev
    · exact old.bounded
    · simp
    · exact fun _ => valid
    · simp [dev, pinnedIff]
    · exact fun _ => held
  · intro j here _ jDev
    simp only [IoState.setDirty, IoState.modify_buf, if_true]
    exact fun eq => here (ok.unique j i jDev dev eq)
  · intro b mem
    simp only [IoState.setDirty, IoState.modify_buf, if_true]
    rcases (pinnedIff b).mp mem with was | rfl
    · by_cases here : (io.buf i).blockno = b
      · exact .inl ⟨trivial, here⟩
      · exact .inr ⟨was, fun _ => here⟩
    · exact .inl ⟨trivial, rfl⟩

/-- The reference of the process that has released the lock is counted still. -/
theorem brelse (ok : IoOk io loose pinned) (tight : ¬ loose i)
    (held : (io.buf i).owner = some pid) : IoOk (io.brelse pid i) loose pinned := by
  have old := ok.slot i
  obtain ⟨same, released⟩ := io.brelse_buf pid i
  have counts (j : Slot) :
      (io.brelse pid i).refs j = io.refs j + if i = j then 1 else 0 := by
    rw [IoState.refs_eq, IoState.refs_eq, IoState.brelse, count_snd_cons]
    simp only [IoState.modify_waiting]
    omega
  refine ok.of_same_identity (i := i) (.refl _) same rfl ?_ (fun _ _ => Iff.rfl) ?_ ?_ ?_ ?_
  · intro j here
    rw [counts, if_neg (Ne.symm here), Nat.add_zero]
  · rw [released]
  · rw [released]
  · rw [released]
  · constructor <;> rw [released]
    · have total := old.refcnt
      rw [held, Option.toList_some, List.length_singleton] at total
      rw [counts, if_pos rfl, Option.toList_none, List.length_nil, total]
      omega
    · exact old.device
    · exact old.bounded
    · exact old.clean
    · exact old.dirty_valid
    · exact old.dirty_iff
    · exact fun loose => absurd loose tight

theorem unref (ok : IoOk io loose pinned) (released : io.unref pid i = some io') :
    IoOk io' loose pinned := by
  have old := ok.slot i
  have order : io'.cache.order.Perm io.cache.order := by
    unfold IoState.unref Bcache.unref at released
    split at released
    · cases released
      simp only
      split
      · exact (List.perm_cons_erase (ok.mem_order i)).symm
      · exact .refl _
    · cases released
  obtain ⟨member, waiting, releasing, disk, same, changed⟩ := IoState.unref_eq_some released
  have counts (j : Slot) : io.refs j = io'.refs j + if i = j then 1 else 0 := by
    rw [IoState.refs_eq, IoState.refs_eq, count_snd_erase member, waiting, releasing]
    omega
  refine ok.of_same_identity (i := i) order same disk ?_ (fun _ _ => Iff.rfl) ?_ ?_ ?_ ?_
  · intro j here
    rw [counts j, if_neg (Ne.symm here), Nat.add_zero]
  · rw [changed]
  · rw [changed]
  · rw [changed]
  · constructor <;> rw [changed]
    · have total := old.refcnt
      rw [counts i, if_pos rfl] at total
      simp only
      omega
    · rcases old.device with dev | ⟨free, invalid⟩
      · exact .inl dev
      · exact .inr ⟨by simp only; omega, invalid⟩
    · exact old.bounded
    · rw [disk]
      exact old.clean
    · exact old.dirty_valid
    · exact old.dirty_iff
    · exact old.owned

/-- Dropping a reference changes nothing else. -/
theorem keeps_of_unref (released : io.unref pid i = some io') (q : Pid) : Keeps q io io' := by
  obtain ⟨-, -, -, disk, same, changed⟩ := IoState.unref_eq_some released
  refine ⟨disk, fun j owner => ?_, fun j dirty => ?_⟩
  · by_cases here : j = i
    · subst here
      rw [changed]
      exact ⟨owner, rfl, rfl, rfl, rfl⟩
    · rw [same j here]
      exact ⟨owner, rfl, rfl, rfl, rfl⟩
  · by_cases here : j = i
    · subst here
      rw [changed] at dirty ⊢
      exact ⟨dirty, rfl, rfl⟩
    · rw [same j here] at dirty ⊢
      exact ⟨dirty, rfl, rfl⟩

/-- Taking a reference disturbs nobody: a recycled buffer has no references. -/
theorem keeps_of_bget (ok : IoOk io loose pinned)
    (got : io.bget pid b = some (i, io')) (q : Pid) : Keeps q io io' := by
  unfold IoState.bget at got
  split at got
  · rename_i slot cache gotCache
    cases got
    rcases Bcache.bget_cases gotCache with ⟨_, _, rfl⟩ | ⟨_, free, _, rfl⟩
    · refine ⟨rfl, fun j owner => ?_, fun j dirty => ?_⟩
      · by_cases here : j = i
        · subst here
          simpa [IoState.buf, Bcache.modify] using owner
        · simpa [IoState.buf, Bcache.modify, here] using owner
      · by_cases here : j = i
        · subst here
          simpa [IoState.buf, Bcache.modify] using dirty
        · simpa [IoState.buf, Bcache.modify, here] using dirty
    · refine ⟨rfl, fun j owner => ?_, fun j dirty => ?_⟩
      · have here : j ≠ i := by
          rintro rfl
          have := ok.refcnt_pos_of_owner (by rw [owner]; simp)
          exact absurd free (Nat.pos_iff_ne_zero.mp this)
        simpa [IoState.buf, Bcache.modify, here] using owner
      · by_cases here : j = i
        · subst here
          simp [IoState.buf, Bcache.modify] at dirty
        · simpa [IoState.buf, Bcache.modify, here] using dirty
  · cases got

theorem waits_of_bget (ok : IoOk io loose pinned)
    (got : io.bget pid b = some (i, io')) {q : Pid} {j : Slot} {n : Nat}
    (waits : Waits io q j n) : Waits io' q j n := by
  unfold IoState.bget at got
  split at got
  · rename_i slot cache gotCache
    cases got
    suffices identity : (cache.buf j).dev = rootdev ∧
        (cache.buf j).blockno = n from
      ⟨List.mem_cons_of_mem _ waits.waiting, identity.1, identity.2⟩
    rcases Bcache.bget_cases gotCache with ⟨_, _, rfl⟩ | ⟨_, free, _, rfl⟩
    · by_cases here : j = i
      · subst here
        simpa [IoState.buf, Bcache.modify] using
          And.intro waits.dev waits.blockno
      · simpa [IoState.buf, Bcache.modify, here] using
          And.intro waits.dev waits.blockno
    · have here : j ≠ i := by
        rintro rfl
        have := ok.refcnt_pos_of_waiting waits.waiting
        exact absurd free (Nat.pos_iff_ne_zero.mp this)
      simpa [IoState.buf, Bcache.modify, here] using
        And.intro waits.dev waits.blockno
  · cases got

/-- After `bget` the process waits for the buffer of the block. -/
theorem waits_self_of_bget (got : io.bget pid b = some (i, io')) :
    Waits io' pid i b := by
  unfold IoState.bget at got
  split at got
  · rename_i slot cache gotCache
    cases got
    suffices identity : (cache.buf i).dev = rootdev ∧
        (cache.buf i).blockno = b from
      ⟨List.mem_cons_self, identity.1, identity.2⟩
    rcases Bcache.bget_cases gotCache with
      ⟨sameDev, sameBlock, rfl⟩ | ⟨_, _, _, rfl⟩
    · simpa [Bcache.modify] using And.intro sameDev sameBlock
    · simp [Bcache.modify]
  · cases got

end IoOk

/-- A change of one buffer that the process does not own keeps what it
relies on, when it does not touch the contents of a dirty buffer. -/
theorem Keeps.of_slot {pid : Pid} {io io' : IoState} {i : Slot}
    (disk : io'.disk = io.disk) (same : ∀ j, j ≠ i → io'.buf j = io.buf j)
    (other : (io.buf i).owner ≠ some pid)
    (dirty : (io'.buf i).dirty = true → (io.buf i).dirty = true ∧
      (io'.buf i).blockno = (io.buf i).blockno ∧
      (io'.buf i).data = (io.buf i).data) : Keeps pid io io' := by
  refine ⟨disk, fun j owner => ?_, fun j isDirty => ?_⟩
  · have here : j ≠ i := by
      rintro rfl
      exact other owner
    rw [same j here]
    exact ⟨owner, rfl, rfl, rfl, rfl⟩
  · by_cases here : j = i
    · subst here
      exact dirty isDirty
    · rw [same j here] at isDirty ⊢
      exact ⟨isDirty, rfl, rfl⟩

theorem Waits.of_slot {pid : Pid} {io io' : IoState} {i j : Slot} {b : Nat}
    (waits : Waits io pid j b) (waiting : (pid, j) ∈ io'.waiting)
    (same : ∀ j, j ≠ i → io'.buf j = io.buf j)
    (dev : (io'.buf i).dev = (io.buf i).dev)
    (blockno : (io'.buf i).blockno = (io.buf i).blockno) :
    Waits io' pid j b := by
  refine ⟨waiting, ?_, ?_⟩
  · by_cases here : j = i
    · subst here
      exact dev.trans waits.dev
    · rw [same j here]
      exact waits.dev
  · by_cases here : j = i
    · subst here
      exact blockno.trans waits.blockno
    · rw [same j here]
      exact waits.blockno

end Xv6
