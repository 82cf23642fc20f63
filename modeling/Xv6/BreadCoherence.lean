import Xv6.BufferCoherence

/-!
# What bread returns

In every run of the cache and the log no block of disk 1 has two buffers, the
links form one ring with every buffer, a buffer that is referenced or dirty
keeps its block, and each `bread` returns the bytes last stored for its block.
The invariant says who may have a reference to a buffer, and that a valid buffer
not changed since it was stored agrees with `stored`, as the disk does where
there is no dirty buffer.
-/

namespace Xv6.Coherence

open LabelledRuns LinkedRing CacheSystem

namespace LinkedCache

@[simp]
theorem modify_buf (c : LinkedCache) (i j : Slot) (f : Buf → Buf) :
    (c.modify i f).buf j = if j = i then f (c.buf i) else c.buf j := by
  simp only [modify, Function.update_apply]

/-- A part of the buffers that the change does not touch. -/
theorem modify_part {α : Type} (part : Buf → α) {c : LinkedCache} {i j : Slot}
    {f : Buf → Buf} (kept : part (f (c.buf i)) = part (c.buf i)) :
    part ((c.modify i f).buf j) = part (c.buf j) := by
  rw [modify_buf]
  split
  · rename_i same
    rw [same, kept]
  · rfl

/-- The links lead round all the buffers. -/
def Linked (c : LinkedCache) : Prop :=
  ∃ order : List Slot, order.Perm (List.finRange nbuf) ∧ Ring c.links order

theorem mem_of_perm {order : List Slot}
    (all : order.Perm (List.finRange nbuf)) (i : Slot) : i ∈ order :=
  all.mem_iff.mpr (List.mem_finRange i)

theorem length_of_perm {order : List Slot}
    (all : order.Perm (List.finRange nbuf)) : order.length < nbuf + 1 := by
  rw [all.length_eq, List.length_finRange]
  exact Nat.lt_succ_self nbuf

/-- Pushing the buffers in turn links them all, the last one first. -/
theorem ring_foldl_push (slots : List Slot) {order : List Slot} {links : Links Slot}
    (ring : Ring links order) (apart : (order ++ slots).Nodup) :
    Ring (slots.foldl Links.push links) (slots.reverse ++ order) := by
  induction slots generalizing links order with
  | nil => simpa using ring
  | cons i slots ih =>
      have fresh : i ∉ order := fun member =>
        (List.nodup_append.mp apart).2.2 i member i (by simp) rfl
      have moved : (i :: order ++ slots).Nodup :=
        List.perm_middle.nodup_iff.mp apart
      simpa using ih (ring.push fresh) moved

theorem linked_binit : binit.Linked := by
  refine ⟨(List.finRange nbuf).reverse, List.reverse_perm _, ?_⟩
  have ring := ring_foldl_push (List.finRange nbuf) ring_empty
    (by simpa using List.nodup_finRange nbuf)
  simpa [binit] using ring

variable {c c' : LinkedCache} {dev blockno : Nat} {i : Slot}

theorem lookup_eq_some (linked : c.Linked) (found : c.lookup dev blockno = some i) :
    (c.buf i).dev = dev ∧ (c.buf i).blockno = blockno := by
  obtain ⟨order, all, ring⟩ := linked
  rw [lookup, ring.search_next _ (length_of_perm all)] at found
  simpa using List.find?_some found

theorem lookup_eq_none (linked : c.Linked) (missing : c.lookup dev blockno = none)
    (j : Slot) (same : (c.buf j).dev = dev) : (c.buf j).blockno ≠ blockno := by
  obtain ⟨order, all, ring⟩ := linked
  rw [lookup, ring.search_next _ (length_of_perm all)] at missing
  simpa [same] using List.find?_eq_none.mp missing j (mem_of_perm all j)

theorem victim_eq_some (linked : c.Linked) (found : c.victim = some i) :
    (c.buf i).refcnt = 0 ∧ (c.buf i).dirty = false := by
  obtain ⟨order, all, ring⟩ := linked
  rw [victim, ring.search_prev _ (length_of_perm all)] at found
  simpa using List.find?_some found

/-- What `bget` does: it takes a reference to the cached buffer, or gives a
free buffer a new identity. -/
theorem bget_cases (linked : c.Linked)
    (got : c.bget dev blockno = some (i, c')) :
    ((c.buf i).dev = dev ∧ (c.buf i).blockno = blockno ∧
      c' = c.modify i fun b => { b with refcnt := b.refcnt + 1 }) ∨
    ((∀ j, (c.buf j).dev = dev → (c.buf j).blockno ≠ blockno) ∧
      (c.buf i).refcnt = 0 ∧ (c.buf i).dirty = false ∧
      c' = c.modify i fun b =>
        { b with
          dev := dev
          blockno := blockno
          valid := false
          dirty := false
          refcnt := 1 }) := by
  unfold bget at got
  split at got
  case h_1 j found =>
    obtain ⟨rfl, rfl⟩ := Prod.mk.inj (Option.some.inj got)
    obtain ⟨sameDev, sameBlock⟩ := lookup_eq_some linked found
    exact .inl ⟨sameDev, sameBlock, rfl⟩
  case h_2 missing =>
    obtain ⟨j, found, same⟩ := Option.map_eq_some_iff.mp got
    obtain ⟨rfl, rfl⟩ := Prod.mk.inj same
    obtain ⟨unused, clean⟩ := victim_eq_some linked found
    exact .inr ⟨lookup_eq_none linked missing, unused, clean, rfl⟩

theorem Linked.bget (linked : c.Linked)
    (got : c.bget dev blockno = some (i, c')) : c'.Linked := by
  obtain ⟨-, -, rfl⟩ | ⟨-, -, -, rfl⟩ := bget_cases linked got <;> exact linked

theorem unref_buf (c : LinkedCache) (i : Slot) :
    (c.unref i).buf =
      (c.modify i fun b => { b with refcnt := b.refcnt - 1 }).buf := by
  unfold unref
  simp only
  split <;> rfl

theorem Linked.unref (linked : c.Linked) (i : Slot) : (c.unref i).Linked := by
  unfold LinkedCache.unref
  simp only
  split
  · obtain ⟨order, all, ring⟩ := linked
    have nodup : order.Nodup := all.nodup_iff.mpr (List.nodup_finRange nbuf)
    have member : i ∈ order := mem_of_perm all i
    refine ⟨i :: order.erase i, (List.perm_cons_erase member).symm.trans all, ?_⟩
    exact (ring.unlink nodup member).push nodup.not_mem_erase
  · exact linked

end LinkedCache

/-- Who has a reference to a buffer: the owner of its lock, the processes that
wait for it and those about to give it back.  A `bread` that has the lock has
the buffer of its block, unchanged, and every other owner has a valid one. -/
structure LocksOk (buf : Slot → Buf) (waiting reading : List Request)
    (appending : List (Pid × Slot)) (releasing changed : List Slot) :
    Prop where
  refs : ∀ i, (buf i).refcnt = (buf i).owner.toList.length +
    (waiting.map Request.slot).count i + releasing.count i
  waits : ∀ r ∈ waiting,
    (buf r.slot).dev = r.dev ∧ (buf r.slot).blockno = r.blockno
  reads : ∀ r ∈ reading,
    (buf r.slot).dev = r.dev ∧ (buf r.slot).blockno = r.blockno ∧
      (buf r.slot).owner = some r.pid ∧ r.slot ∉ changed
  apart : (reading.map Request.slot).Nodup
  owned : ∀ i, (buf i).owner ≠ none →
    (buf i).valid = true ∨ i ∈ reading.map Request.slot
  changed : ∀ i ∈ changed, (buf i).owner ≠ none
  appends : ∀ entry ∈ appending, (buf entry.2).owner = some entry.1 ∧
    entry.2 ∉ reading.map Request.slot

/-- What the buffers and the disk hold. -/
structure ContentsOk (buf : Slot → Buf) (disk stored : Disk)
    (changed : List Slot) : Prop where
  unique : ∀ i j, (buf i).dev = rootdev → (buf j).dev = rootdev →
    (buf i).blockno = (buf j).blockno → i = j
  device : ∀ i, (buf i).valid = true → (buf i).dev = rootdev
  dirty : ∀ i, (buf i).dirty = true → (buf i).valid = true
  data : ∀ i, (buf i).valid = true → i ∉ changed →
    (buf i).data = stored (buf i).blockno
  disk : ∀ b, (∀ i, (buf i).dirty = true → (buf i).blockno ≠ b) →
    disk b = stored b

namespace LocksOk

variable {buf buf' : Slot → Buf} {waiting waiting' reading : List Request}
  {appending : List (Pid × Slot)} {releasing releasing' changed : List Slot}
  {i : Slot} {r : Request} {pid : Pid}

/-- A buffer without references is not locked, and nobody waits for it. -/
theorem free (ok : LocksOk buf waiting reading appending releasing changed)
    (unused : (buf i).refcnt = 0) :
    (buf i).owner = none ∧ i ∉ waiting.map Request.slot ∧ i ∉ releasing := by
  have refs := ok.refs i
  rw [unused] at refs
  refine ⟨?_, ?_, ?_⟩
  · cases owner : (buf i).owner with
    | none => rfl
    | some pid =>
        simp only [owner, Option.toList_some, List.length_singleton] at refs
        omega
  · exact List.count_eq_zero.mp (by omega)
  · exact List.count_eq_zero.mp (by omega)

theorem owned_of_reading
    (ok : LocksOk buf waiting reading appending releasing changed)
    (member : i ∈ reading.map Request.slot) : (buf i).owner ≠ none := by
  obtain ⟨r, inside, rfl⟩ := List.mem_map.mp member
  rw [(ok.reads r inside).2.2.1]
  exact Option.some_ne_none _

/-- Locks and identities do not change, and the references are counted
again. -/
theorem recount (ok : LocksOk buf waiting reading appending releasing changed)
    (same : ∀ j, (buf' j).owner = (buf j).owner ∧ (buf' j).dev = (buf j).dev ∧
      (buf' j).blockno = (buf j).blockno ∧
      ((buf j).valid = true → (buf' j).valid = true))
    (refs : ∀ j, (buf' j).refcnt = (buf' j).owner.toList.length +
      (waiting'.map Request.slot).count j + releasing'.count j)
    (waits : ∀ r ∈ waiting',
      (buf r.slot).dev = r.dev ∧ (buf r.slot).blockno = r.blockno) :
    LocksOk buf' waiting' reading appending releasing' changed where
  refs := refs
  waits r member := by
    rw [(same r.slot).2.1, (same r.slot).2.2.1]
    exact waits r member
  reads r member := by
    rw [(same r.slot).1, (same r.slot).2.1, (same r.slot).2.2.1]
    exact ok.reads r member
  apart := ok.apart
  owned j := by
    rw [(same j).1]
    exact fun locked => (ok.owned j locked).imp_left (same j).2.2.2
  changed j := by
    rw [(same j).1]
    exact ok.changed j
  appends entry := by
    rw [(same entry.2).1]
    exact ok.appends entry

/-- Locks, identities and counts do not change. -/
theorem congr (ok : LocksOk buf waiting reading appending releasing changed)
    (same : ∀ j, (buf' j).owner = (buf j).owner ∧ (buf' j).dev = (buf j).dev ∧
      (buf' j).blockno = (buf j).blockno ∧
      ((buf j).valid = true → (buf' j).valid = true))
    (refs : ∀ j, (buf' j).refcnt = (buf j).refcnt) :
    LocksOk buf' waiting reading appending releasing changed := by
  refine ok.recount same (fun j => ?_) ok.waits
  rw [refs j, (same j).1]
  exact ok.refs j

/-- `bget` takes a reference to the buffer of the block. -/
theorem hit (ok : LocksOk buf waiting reading appending releasing changed)
    (dev : (buf r.slot).dev = r.dev) (blockno : (buf r.slot).blockno = r.blockno)
    (here : buf' r.slot = { buf r.slot with refcnt := (buf r.slot).refcnt + 1 })
    (elsewhere : ∀ j, j ≠ r.slot → buf' j = buf j) :
    LocksOk buf' (r :: waiting) reading appending releasing changed := by
  refine ok.recount (fun j => ?_) (fun j => ?_) (fun other member => ?_)
  · rcases eq_or_ne j r.slot with rfl | other
    · rw [here]
      exact ⟨rfl, rfl, rfl, id⟩
    · rw [elsewhere j other]
      exact ⟨rfl, rfl, rfl, id⟩
  · have refs := ok.refs j
    rcases eq_or_ne j r.slot with rfl | other
    · rw [here, List.map_cons, List.count_cons_self]
      dsimp only
      omega
    · rwa [elsewhere j other, List.map_cons, List.count_cons_of_ne other.symm]
  · rcases List.mem_cons.mp member with rfl | member
    · exact ⟨dev, blockno⟩
    · exact ok.waits other member

/-- `bget` gives a buffer without references a new identity. -/
theorem recycle (ok : LocksOk buf waiting reading appending releasing changed)
    (unused : (buf r.slot).refcnt = 0) (dev : (buf' r.slot).dev = r.dev)
    (blockno : (buf' r.slot).blockno = r.blockno)
    (owner : (buf' r.slot).owner = (buf r.slot).owner)
    (refcnt : (buf' r.slot).refcnt = 1)
    (elsewhere : ∀ j, j ≠ r.slot → buf' j = buf j) :
    LocksOk buf' (r :: waiting) reading appending releasing changed := by
  obtain ⟨unlocked, unwanted, unreleased⟩ := ok.free unused
  have notOwned {j : Slot} (locked : (buf j).owner ≠ none) : j ≠ r.slot := by
    rintro rfl
    exact locked unlocked
  have sameOwner (j : Slot) : (buf' j).owner = (buf j).owner := by
    rcases eq_or_ne j r.slot with rfl | other
    · exact owner
    · rw [elsewhere j other]
  refine ⟨fun j => ?_, fun other member => ?_, fun other member => ?_, ok.apart,
    fun j => ?_, fun j => ?_, fun entry => ?_⟩
  · rcases eq_or_ne j r.slot with rfl | other
    · rw [refcnt, owner, unlocked, List.map_cons, List.count_cons_self,
        List.count_eq_zero.mpr unwanted, List.count_eq_zero.mpr unreleased]
      rfl
    · rw [elsewhere j other, List.map_cons, List.count_cons_of_ne other.symm]
      exact ok.refs j
  · rcases List.mem_cons.mp member with rfl | member
    · exact ⟨dev, blockno⟩
    · rw [elsewhere _ fun same => unwanted (same ▸ List.mem_map_of_mem member)]
      exact ok.waits other member
  · have locked := ok.owned_of_reading (List.mem_map_of_mem member)
    rw [elsewhere _ (notOwned locked)]
    exact ok.reads other member
  · rw [sameOwner j]
    intro locked
    rw [elsewhere j (notOwned locked)]
    exact ok.owned j locked
  · rw [sameOwner j]
    exact ok.changed j
  · rw [sameOwner entry.2]
    exact ok.appends entry

/-- `acquiresleep` of a process that waits. -/
theorem acquire (ok : LocksOk buf waiting reading appending releasing changed)
    (member : r ∈ waiting) (unlocked : (buf r.slot).owner = none)
    (here : buf' r.slot = { buf r.slot with owner := some r.pid })
    (elsewhere : ∀ j, j ≠ r.slot → buf' j = buf j) :
    LocksOk buf' (waiting.erase r) (r :: reading) appending releasing changed := by
  have notOwned {j : Slot} (locked : (buf j).owner ≠ none) : j ≠ r.slot := by
    rintro rfl
    exact locked unlocked
  have unchanged : r.slot ∉ changed := fun inside => ok.changed _ inside unlocked
  have notReading : r.slot ∉ reading.map Request.slot := fun inside =>
    ok.owned_of_reading inside unlocked
  have identity (j : Slot) : (buf' j).dev = (buf j).dev ∧
      (buf' j).blockno = (buf j).blockno := by
    rcases eq_or_ne j r.slot with rfl | other
    · rw [here]
      exact ⟨rfl, rfl⟩
    · rw [elsewhere j other]
      exact ⟨rfl, rfl⟩
  have counts : (waiting.map Request.slot).Perm
      (r.slot :: (waiting.erase r).map Request.slot) :=
    (List.perm_cons_erase member).map Request.slot
  refine ⟨fun j => ?_, fun other inside => ?_, fun other inside => ?_, ?_,
    fun j locked => ?_, fun j inside => ?_, fun entry inside => ?_⟩
  · have refs := ok.refs j
    rw [counts.count_eq j] at refs
    rcases eq_or_ne j r.slot with rfl | other
    · rw [unlocked, List.count_cons_self] at refs
      rw [here]
      simp only [Option.toList_none, Option.toList_some, List.length_nil,
        List.length_singleton] at refs ⊢
      omega
    · rw [List.count_cons_of_ne other.symm] at refs
      rwa [elsewhere j other]
  · rw [(identity _).1, (identity _).2]
    exact ok.waits other (List.mem_of_mem_erase inside)
  · rcases List.mem_cons.mp inside with rfl | inside
    · obtain ⟨dev, blockno⟩ := ok.waits other member
      rw [here]
      exact ⟨dev, blockno, rfl, unchanged⟩
    · have locked := ok.owned_of_reading (List.mem_map_of_mem inside)
      rw [elsewhere _ (notOwned locked)]
      exact ok.reads other inside
  · exact List.nodup_cons.mpr ⟨notReading, ok.apart⟩
  · rcases eq_or_ne j r.slot with rfl | other
    · exact .inr (List.mem_cons_self ..)
    · rw [elsewhere j other] at locked ⊢
      exact (ok.owned j locked).imp_right (List.mem_cons_of_mem _)
  · rw [elsewhere j (notOwned (ok.changed j inside))]
    exact ok.changed j inside
  · obtain ⟨owner, outside⟩ := ok.appends entry inside
    have other : entry.2 ≠ r.slot := notOwned (by rw [owner]; nofun)
    rw [elsewhere _ other]
    exact ⟨owner, List.not_mem_cons_of_ne_of_not_mem other outside⟩

/-- `bread` returns a valid buffer. -/
theorem finish (ok : LocksOk buf waiting reading appending releasing changed)
    (member : r ∈ reading) (valid : (buf r.slot).valid = true) :
    LocksOk buf waiting (reading.erase r) appending releasing changed := by
  have split : (reading.map Request.slot).Perm
      (r.slot :: (reading.erase r).map Request.slot) :=
    (List.perm_cons_erase member).map Request.slot
  have apart := split.nodup_iff.mp ok.apart
  refine ⟨ok.refs, ok.waits, fun other inside => ?_, (List.nodup_cons.mp apart).2,
    fun j locked => ?_, ok.changed, fun entry inside => ?_⟩
  · exact ok.reads other (List.mem_of_mem_erase inside)
  · rcases ok.owned j locked with filled | inside
    · exact .inl filled
    · rcases List.mem_cons.mp (split.mem_iff.mp inside) with rfl | inside
      · exact .inl valid
      · exact .inr inside
  · obtain ⟨owner, outside⟩ := ok.appends entry inside
    refine ⟨owner, fun inside => outside (split.mem_iff.mpr ?_)⟩
    exact List.mem_cons_of_mem _ inside

/-- The list of changed buffers grows by a locked one, or shrinks. -/
theorem setChanged {changed' : List Slot}
    (ok : LocksOk buf waiting reading appending releasing changed)
    (locked : ∀ j ∈ changed', j ∈ changed ∨
      (buf j).owner ≠ none ∧ j ∉ reading.map Request.slot) :
    LocksOk buf waiting reading appending releasing changed' where
  refs := ok.refs
  waits := ok.waits
  reads r member := by
    obtain ⟨dev, blockno, owner, unchanged⟩ := ok.reads r member
    refine ⟨dev, blockno, owner, fun inside => ?_⟩
    rcases locked _ inside with inside | ⟨-, outside⟩
    · exact unchanged inside
    · exact outside (List.mem_map_of_mem member)
  apart := ok.apart
  owned := ok.owned
  changed j inside := (locked j inside).elim (ok.changed j) And.left
  appends := ok.appends

/-- The list of calls of `log_write` grows by one on a locked buffer, or
shrinks. -/
theorem setAppending (appending' : List (Pid × Slot))
    (ok : LocksOk buf waiting reading appending releasing changed)
    (locked : ∀ entry ∈ appending', (buf entry.2).owner = some entry.1 ∧
      entry.2 ∉ reading.map Request.slot) :
    LocksOk buf waiting reading appending' releasing changed :=
  { ok with appends := locked }

/-- `releasesleep` of a buffer that its owner has finished with. -/
theorem release (ok : LocksOk buf waiting reading appending releasing changed)
    (owner : (buf i).owner = some pid) (unchanged : i ∉ changed)
    (outside : i ∉ reading.map Request.slot)
    (idle : pid ∉ appending.map Prod.fst)
    (here : buf' i = { buf i with owner := none })
    (elsewhere : ∀ j, j ≠ i → buf' j = buf j) :
    LocksOk buf' waiting reading appending (i :: releasing) changed := by
  have identity (j : Slot) : (buf' j).dev = (buf j).dev ∧
      (buf' j).blockno = (buf j).blockno := by
    rcases eq_or_ne j i with rfl | other
    · rw [here]
      exact ⟨rfl, rfl⟩
    · rw [elsewhere j other]
      exact ⟨rfl, rfl⟩
  refine ⟨fun j => ?_, fun r inside => ?_, fun r inside => ?_, ok.apart,
    fun j locked => ?_, fun j inside => ?_, fun entry inside => ?_⟩
  · have refs := ok.refs j
    rcases eq_or_ne j i with rfl | other
    · rw [owner] at refs
      rw [here, List.count_cons_self]
      simp only [Option.toList_none, Option.toList_some, List.length_nil,
        List.length_singleton] at refs ⊢
      omega
    · rwa [elsewhere j other, List.count_cons_of_ne other.symm]
  · rw [(identity _).1, (identity _).2]
    exact ok.waits r inside
  · rw [elsewhere _ fun same => outside (same ▸ List.mem_map_of_mem inside)]
    exact ok.reads r inside
  · rcases eq_or_ne j i with rfl | other
    · rw [here] at locked
      exact absurd rfl locked
    · rw [elsewhere j other] at locked ⊢
      exact ok.owned j locked
  · rw [elsewhere j fun same => unchanged (same ▸ inside)]
    exact ok.changed j inside
  · obtain ⟨holder, apart⟩ := ok.appends entry inside
    have other : entry.2 ≠ i := by
      rintro rfl
      rw [owner] at holder
      exact idle (Option.some.inj holder ▸ List.mem_map_of_mem inside)
    rw [elsewhere _ other]
    exact ⟨holder, apart⟩

/-- The rest of `brelse`. -/
theorem unref (ok : LocksOk buf waiting reading appending releasing changed)
    (member : i ∈ releasing)
    (here : buf' i = { buf i with refcnt := (buf i).refcnt - 1 })
    (elsewhere : ∀ j, j ≠ i → buf' j = buf j) :
    LocksOk buf' waiting reading appending (releasing.erase i) changed := by
  refine ok.recount (fun j => ?_) (fun j => ?_) ok.waits
  · rcases eq_or_ne j i with rfl | other
    · rw [here]
      exact ⟨rfl, rfl, rfl, id⟩
    · rw [elsewhere j other]
      exact ⟨rfl, rfl, rfl, id⟩
  · have refs := ok.refs j
    rcases eq_or_ne j i with rfl | other
    · have counted : 0 < releasing.count j := List.count_pos_iff.mpr member
      rw [here, List.count_erase_self]
      dsimp only
      omega
    · rwa [elsewhere j other, List.count_erase_of_ne other]

end LocksOk

namespace ContentsOk

variable {buf buf' : Slot → Buf} {disk disk' stored : Disk}
  {changed : List Slot} {i : Slot}

/-- Identities, flags and data do not change. -/
theorem congr (ok : ContentsOk buf disk stored changed)
    (same : ∀ j, (buf' j).dev = (buf j).dev ∧
      (buf' j).blockno = (buf j).blockno ∧ (buf' j).valid = (buf j).valid ∧
      (buf' j).dirty = (buf j).dirty ∧ (buf' j).data = (buf j).data) :
    ContentsOk buf' disk stored changed where
  unique j k := by
    rw [(same j).1, (same k).1, (same j).2.1, (same k).2.1]
    exact ok.unique j k
  device j := by
    rw [(same j).1, (same j).2.2.1]
    exact ok.device j
  dirty j := by
    rw [(same j).2.2.2.1, (same j).2.2.1]
    exact ok.dirty j
  data j := by
    rw [(same j).2.2.1, (same j).2.2.2.2, (same j).2.1]
    exact ok.data j
  disk b clean := by
    refine ok.disk b fun j dirty => ?_
    rw [← (same j).2.1]
    exact clean j ((same j).2.2.2.1.trans dirty)

/-- `bget` gives a clean buffer the identity of a block that has none. -/
theorem recycle {dev blockno : Nat} (ok : ContentsOk buf disk stored changed)
    (absent : ∀ j, (buf j).dev = dev → (buf j).blockno ≠ blockno)
    (clean : (buf i).dirty = false) (newDev : (buf' i).dev = dev)
    (newBlockno : (buf' i).blockno = blockno)
    (newValid : (buf' i).valid = false) (newDirty : (buf' i).dirty = false)
    (elsewhere : ∀ j, j ≠ i → buf' j = buf j) :
    ContentsOk buf' disk stored changed := by
  have notValid {j : Slot} (valid : (buf' j).valid = true) : j ≠ i := by
    rintro rfl
    rw [newValid] at valid
    cases valid
  have notDirty {j : Slot} (dirty : (buf' j).dirty = true) : j ≠ i := by
    rintro rfl
    rw [newDirty] at dirty
    cases dirty
  have noOther {j : Slot} (other : j ≠ i) (sameDev : (buf' j).dev = (buf' i).dev) :
      (buf' j).blockno ≠ (buf' i).blockno := by
    rw [newDev, elsewhere j other] at sameDev
    rw [newBlockno, elsewhere j other]
    exact absent j sameDev
  refine ⟨fun j k first second same => ?_, fun j valid => ?_, fun j dirty => ?_,
    fun j valid => ?_, fun b clear => ok.disk b fun j dirty => ?_⟩
  · rcases eq_or_ne j i with rfl | firstOther
    · rcases eq_or_ne k j with rfl | secondOther
      · rfl
      · exact absurd same.symm (noOther secondOther (second.trans first.symm))
    · rcases eq_or_ne k i with rfl | secondOther
      · exact absurd same (noOther firstOther (first.trans second.symm))
      · rw [elsewhere j firstOther] at first same
        rw [elsewhere k secondOther] at second same
        exact ok.unique j k first second same
  · have other := elsewhere j (notValid valid)
    rw [other] at valid ⊢
    exact ok.device j valid
  · have other := elsewhere j (notDirty dirty)
    rw [other] at dirty ⊢
    exact ok.dirty j dirty
  · have other := elsewhere j (notValid valid)
    rw [other] at valid ⊢
    exact ok.data j valid
  · have other : j ≠ i := by
      rintro rfl
      rw [clean] at dirty
      cases dirty
    have later := clear j
    rw [elsewhere j other] at later
    exact later dirty

/-- `iderw` reads a block that no valid buffer has. -/
theorem fill (ok : ContentsOk buf disk stored changed)
    (empty : (buf i).valid = false) (dev : (buf i).dev = rootdev)
    (here : buf' i =
      { buf i with data := disk (buf i).blockno, valid := true })
    (elsewhere : ∀ j, j ≠ i → buf' j = buf j) :
    ContentsOk buf' disk stored changed := by
  have same (j : Slot) : (buf' j).dev = (buf j).dev ∧
      (buf' j).blockno = (buf j).blockno ∧ (buf' j).dirty = (buf j).dirty := by
    rcases eq_or_ne j i with rfl | other
    · rw [here]
      exact ⟨rfl, rfl, rfl⟩
    · rw [elsewhere j other]
      exact ⟨rfl, rfl, rfl⟩
  have noDirty (j : Slot) (dirty : (buf j).dirty = true) :
      (buf j).blockno ≠ (buf i).blockno := by
    intro sameBlock
    have valid := ok.dirty j dirty
    rw [ok.unique j i (ok.device j valid) dev sameBlock, empty] at valid
    cases valid
  refine ⟨fun j k => ?_, fun j valid => ?_, fun j dirty => ?_, fun j valid => ?_,
    fun b clear => ok.disk b fun j dirty => ?_⟩
  · rw [(same j).1, (same k).1, (same j).2.1, (same k).2.1]
    exact ok.unique j k
  · rw [(same j).1]
    rcases eq_or_ne j i with rfl | other
    · exact dev
    · rw [elsewhere j other] at valid
      exact ok.device j valid
  · rw [(same j).2.2] at dirty
    rcases eq_or_ne j i with rfl | other
    · rw [here]
    · rw [elsewhere j other]
      exact ok.dirty j dirty
  · rcases eq_or_ne j i with rfl | other
    · rw [here]
      exact fun _ => ok.disk _ noDirty
    · rw [elsewhere j other] at valid ⊢
      exact ok.data j valid
  · rw [← (same j).2.1]
    exact clear j ((same j).2.2.trans dirty)

/-- A store to the data of a buffer that counts as changed from then on. -/
theorem setData (ok : ContentsOk buf disk stored changed)
    {data : Block} (here : buf' i = { buf i with data := data })
    (elsewhere : ∀ j, j ≠ i → buf' j = buf j) :
    ContentsOk buf' disk stored (i :: changed) := by
  have same (j : Slot) : (buf' j).dev = (buf j).dev ∧
      (buf' j).blockno = (buf j).blockno ∧ (buf' j).valid = (buf j).valid ∧
      (buf' j).dirty = (buf j).dirty := by
    rcases eq_or_ne j i with rfl | other
    · rw [here]
      exact ⟨rfl, rfl, rfl, rfl⟩
    · rw [elsewhere j other]
      exact ⟨rfl, rfl, rfl, rfl⟩
  refine ⟨fun j k => ?_, fun j => ?_, fun j => ?_, fun j valid unchanged => ?_,
    fun b clear => ok.disk b fun j dirty => ?_⟩
  · rw [(same j).1, (same k).1, (same j).2.1, (same k).2.1]
    exact ok.unique j k
  · rw [(same j).1, (same j).2.2.1]
    exact ok.device j
  · rw [(same j).2.2.1, (same j).2.2.2]
    exact ok.dirty j
  · have other : j ≠ i := List.ne_of_not_mem_cons unchanged
    rw [elsewhere j other] at valid ⊢
    exact ok.data j valid (List.not_mem_of_not_mem_cons unchanged)
  · rw [← (same j).2.1]
    exact clear j ((same j).2.2.2.trans dirty)

/-- A valid buffer is stored, on the disk or in the cache as a dirty one. -/
theorem store (ok : ContentsOk buf disk stored changed)
    (dev : (buf i).dev = rootdev)
    (dirty : Bool) (here : buf' i = { buf i with valid := true, dirty := dirty })
    (elsewhere : ∀ j, j ≠ i → buf' j = buf j)
    (away : ∀ b, b ≠ (buf i).blockno → disk' b = disk b)
    (home : dirty = true ∨ disk' (buf i).blockno = (buf i).data) :
    ContentsOk buf' disk'
      (Function.update stored (buf i).blockno (buf i).data)
      (changed.filter (· ≠ i)) := by
  have same (j : Slot) : (buf' j).dev = (buf j).dev ∧
      (buf' j).blockno = (buf j).blockno := by
    rcases eq_or_ne j i with rfl | other
    · rw [here]
      exact ⟨rfl, rfl⟩
    · rw [elsewhere j other]
      exact ⟨rfl, rfl⟩
  have noOther {j : Slot} (other : j ≠ i) (valid : (buf j).valid = true) :
      (buf j).blockno ≠ (buf i).blockno := fun sameBlock =>
    other (ok.unique j i (ok.device j valid) dev sameBlock)
  refine ⟨fun j k => ?_, fun j valid => ?_, fun j marked => ?_,
    fun j valid unchanged => ?_, fun b clear => ?_⟩
  · rw [(same j).1, (same k).1, (same j).2, (same k).2]
    exact ok.unique j k
  · rw [(same j).1]
    rcases eq_or_ne j i with rfl | other
    · exact dev
    · rw [elsewhere j other] at valid
      exact ok.device j valid
  · rcases eq_or_ne j i with rfl | other
    · rw [here]
    · rw [elsewhere j other] at marked ⊢
      exact ok.dirty j marked
  · rcases eq_or_ne j i with rfl | other
    · simp only [here, Function.update_self]
    · rw [elsewhere j other] at valid ⊢
      rw [Function.update_of_ne (noOther other valid)]
      refine ok.data j valid fun inside => unchanged ?_
      exact List.mem_filter.mpr ⟨inside, by simpa using other⟩
  · rcases eq_or_ne b (buf i).blockno with rfl | other
    · rw [Function.update_self]
      refine home.resolve_left fun marked => clear i ?_ (same i).2
      rw [here]
      exact marked
    · rw [Function.update_of_ne other, away b other]
      refine ok.disk b fun j marked => ?_
      rcases eq_or_ne j i with rfl | elsewhere'
      · exact other.symm
      · have later := clear j
        rw [elsewhere j elsewhere'] at later
        exact later marked

end ContentsOk

/-- A change to a buffer that keeps its lock, identity and count, and leaves it
valid. -/
theorem LocksOk.modify {c : LinkedCache} {f : Buf → Buf} {i : Slot}
    {waiting reading : List Request} {appending : List (Pid × Slot)}
    {releasing changed : List Slot}
    (ok : LocksOk c.buf waiting reading appending releasing changed)
    (owner : (f (c.buf i)).owner = (c.buf i).owner)
    (dev : (f (c.buf i)).dev = (c.buf i).dev)
    (blockno : (f (c.buf i)).blockno = (c.buf i).blockno)
    (valid : (c.buf i).valid = true → (f (c.buf i)).valid = true)
    (refcnt : (f (c.buf i)).refcnt = (c.buf i).refcnt) :
    LocksOk (c.modify i f).buf waiting reading appending releasing changed := by
  refine ok.congr (fun j => ?_) fun j => LinkedCache.modify_part Buf.refcnt refcnt
  refine ⟨LinkedCache.modify_part Buf.owner owner,
    LinkedCache.modify_part Buf.dev dev,
    LinkedCache.modify_part Buf.blockno blockno, ?_⟩
  rw [LinkedCache.modify_buf]
  split
  · rename_i same
    rw [same]
    exact valid
  · exact id

/-- A change to a buffer that keeps its identity, flags and data. -/
theorem ContentsOk.modify {c : LinkedCache} {f : Buf → Buf} {i : Slot}
    {disk stored : Disk} {changed : List Slot}
    (ok : ContentsOk c.buf disk stored changed)
    (dev : (f (c.buf i)).dev = (c.buf i).dev)
    (blockno : (f (c.buf i)).blockno = (c.buf i).blockno)
    (valid : (f (c.buf i)).valid = (c.buf i).valid)
    (dirty : (f (c.buf i)).dirty = (c.buf i).dirty)
    (data : (f (c.buf i)).data = (c.buf i).data) :
    ContentsOk (c.modify i f).buf disk stored changed :=
  ok.congr fun _ =>
    ⟨LinkedCache.modify_part Buf.dev dev,
      LinkedCache.modify_part Buf.blockno blockno,
      LinkedCache.modify_part Buf.valid valid,
      LinkedCache.modify_part Buf.dirty dirty,
      LinkedCache.modify_part Buf.data data⟩

/-- The invariant of the cache. -/
structure CacheOk (s : CacheSystem) : Prop where
  linked : s.cache.Linked
  locks : LocksOk s.cache.buf s.waiting s.reading s.appending s.releasing
    s.changed
  contents : ContentsOk s.cache.buf s.disk s.stored s.changed
  breads : ∀ entry ∈ s.breads, entry.2.1 = entry.2.2

/-- The process holds a buffer that a `bread` has returned. -/
def Held (s : CacheSystem) (pid : Pid) (i : Slot) : Prop :=
  (s.buf i).owner = some pid ∧ i ∉ s.reading.map Request.slot

/-- The process holds a buffer that agrees with what was stored. -/
def Clean (s : CacheSystem) (pid : Pid) (i : Slot) : Prop :=
  Held s pid i ∧ i ∉ s.changed

/-- A step that leaves a buffer to the process that holds it. -/
structure Leaves (s t : CacheSystem) (i : Slot) : Prop where
  owner : (t.buf i).owner = (s.buf i).owner
  reading : i ∈ t.reading.map Request.slot → i ∈ s.reading.map Request.slot
  changed : i ∈ t.changed → i ∈ s.changed

variable {g : Layout} {s t : CacheSystem} {pid : Pid} {i j : Slot} {r : Request}
  {dev blockno : Nat} {data : Block}

/-- A part of the buffers that a step does not touch. -/
theorem part_eq {α : Type} (part : Buf → α) {f : Buf → Buf}
    (cache : t.cache = s.cache.modify i f)
    (kept : part (f (s.buf i)) = part (s.buf i)) :
    part (t.buf j) = part (s.buf j) := by
  unfold CacheSystem.buf
  rw [cache]
  exact LinkedCache.modify_part part kept

theorem Held.leaves (held : Held s pid i) (leaves : Leaves s t i) :
    Held t pid i :=
  ⟨leaves.owner.trans held.1, fun inside => held.2 (leaves.reading inside)⟩

theorem Clean.leaves (clean : Clean s pid i) (leaves : Leaves s t i) :
    Clean t pid i :=
  ⟨clean.1.leaves leaves, fun inside => clean.2 (leaves.changed inside)⟩

/-- A process that is not inside a `bread` holds what it has locked. -/
theorem held_of_ready (ok : CacheOk s) (ready : s.Ready pid)
    (owner : (s.buf i).owner = some pid) : Held s pid i := by
  refine ⟨owner, fun inside => ready.2.2.1 ?_⟩
  obtain ⟨r, member, rfl⟩ := List.mem_map.mp inside
  have reader := (ok.locks.reads r member).2.2.1
  have same : some pid = some r.pid := owner.symm.trans reader
  rw [Option.some.inj same]
  exact List.mem_map_of_mem member

theorem valid_of_held (ok : CacheOk s) (held : Held s pid i) :
    (s.buf i).valid = true := by
  refine (ok.locks.owned i ?_).resolve_right held.2
  change (s.buf i).owner ≠ none
  rw [held.1]
  exact Option.some_ne_none pid

theorem dev_of_held (ok : CacheOk s) (held : Held s pid i) :
    (s.buf i).dev = rootdev :=
  ok.contents.device i (valid_of_held ok held)

theorem CacheOk.bget (ok : CacheOk s)
    (got : s.bget pid dev blockno = some (i, t)) : CacheOk t := by
  obtain ⟨⟨k, cache⟩, found, same⟩ := Option.map_eq_some_iff.mp got
  obtain ⟨rfl, rfl⟩ := Prod.mk.inj same
  have linked := ok.linked.bget found
  obtain ⟨sameDev, sameBlock, rfl⟩ | ⟨absent, unused, clean, rfl⟩ :=
    LinkedCache.bget_cases ok.linked found
  · refine ⟨linked, ?_, ok.contents.modify rfl rfl rfl rfl rfl, ok.breads⟩
    exact ok.locks.hit (r := ⟨pid, k, dev, blockno⟩) sameDev sameBlock
      (Function.update_self ..) fun j other => Function.update_of_ne other ..
  · have here := LinkedCache.modify_buf s.cache k k fun b =>
      { b with
        dev := dev
        blockno := blockno
        valid := false
        dirty := false
        refcnt := 1 }
    rw [if_pos rfl] at here
    refine ⟨linked, ?_, ?_, ok.breads⟩
    · refine ok.locks.recycle (r := ⟨pid, k, dev, blockno⟩) unused ?_ ?_ ?_ ?_
        fun j other => Function.update_of_ne other ..
      all_goals
        rw [here]
    · refine ok.contents.recycle (i := k) absent clean ?_ ?_ ?_ ?_
        fun j other => Function.update_of_ne other ..
      all_goals
        rw [here]

theorem leaves_bget (ok : CacheOk s)
    (got : s.bget pid dev blockno = some (i, t)) : Leaves s t j := by
  obtain ⟨⟨k, cache⟩, found, same⟩ := Option.map_eq_some_iff.mp got
  obtain ⟨rfl, rfl⟩ := Prod.mk.inj same
  refine ⟨?_, id, id⟩
  change (cache.buf j).owner = (s.cache.buf j).owner
  obtain ⟨-, -, rfl⟩ | ⟨-, -, -, rfl⟩ := LinkedCache.bget_cases ok.linked found
  all_goals exact LinkedCache.modify_part Buf.owner rfl

theorem acquire_eq_some (acquired : s.acquire r = some t) :
    r ∈ s.waiting ∧ (s.buf r.slot).owner = none ∧
      t = { s.modify r.slot fun b => { b with owner := some r.pid } with
        waiting := s.waiting.erase r
        reading := r :: s.reading } := by
  unfold CacheSystem.acquire at acquired
  split at acquired
  · rename_i enabled
    exact ⟨enabled.1, enabled.2, (Option.some.inj acquired).symm⟩
  · cases acquired

theorem CacheOk.acquire (ok : CacheOk s) (acquired : s.acquire r = some t) :
    CacheOk t := by
  obtain ⟨member, unlocked, rfl⟩ := acquire_eq_some acquired
  refine ⟨ok.linked, ?_, ok.contents.modify rfl rfl rfl rfl rfl, ok.breads⟩
  exact ok.locks.acquire member unlocked (Function.update_self ..)
    fun j other => Function.update_of_ne other ..

theorem leaves_acquire (acquired : s.acquire r = some t)
    (locked : (s.buf j).owner ≠ none) : Leaves s t j := by
  obtain ⟨-, unlocked, rfl⟩ := acquire_eq_some acquired
  have other : j ≠ r.slot := by
    rintro rfl
    exact locked unlocked
  refine ⟨?_, fun inside => ?_, id⟩
  · exact congrArg Buf.owner (Function.update_of_ne other ..)
  · exact (List.mem_cons.mp inside).resolve_left other

/-- What a `bread` that has the lock does: it fills the buffer where necessary
and returns it. -/
theorem finishBread_eq_some (finished : s.finishBread g r = some t) :
    r ∈ s.reading ∧ ∃ u : CacheSystem, t = u.returnBread r ∧
      ((s.buf r.slot).valid = true ∧ u = s ∨
        (s.buf r.slot).valid = false ∧ (s.buf r.slot).dev = rootdev ∧
          u = s.modify r.slot fun b =>
            { b with data := s.disk b.blockno, valid := true }) := by
  unfold finishBread at finished
  split at finished
  · rename_i member
    refine ⟨member, ?_⟩
    split at finished
    · rename_i valid
      exact ⟨s, (Option.some.inj finished).symm, .inl ⟨valid, rfl⟩⟩
    · rename_i empty
      obtain ⟨u, filled, rfl⟩ := Option.map_eq_some_iff.mp finished
      unfold fill at filled
      split at filled
      · rename_i inRange
        refine ⟨u, rfl, .inr ⟨by simpa using empty, inRange.1, ?_⟩⟩
        exact (Option.some.inj filled).symm
      · cases filled
  · cases finished

theorem CacheOk.returnBread (ok : CacheOk s) (member : r ∈ s.reading)
    (valid : (s.buf r.slot).valid = true) : CacheOk (s.returnBread r) := by
  refine ⟨ok.linked, ok.locks.finish member valid, ok.contents,
    fun entry inside => ?_⟩
  rcases List.mem_cons.mp inside with rfl | inside
  · obtain ⟨-, blockno, -, unchanged⟩ := ok.locks.reads r member
    rw [← blockno]
    exact ok.contents.data r.slot valid unchanged
  · exact ok.breads entry inside

theorem CacheOk.finishBread (ok : CacheOk s)
    (finished : s.finishBread g r = some t) : CacheOk t := by
  obtain ⟨member, u, rfl, ⟨valid, rfl⟩ | ⟨empty, sameDev, rfl⟩⟩ :=
    finishBread_eq_some finished
  · exact ok.returnBread member valid
  · have here := LinkedCache.modify_buf s.cache r.slot r.slot fun b =>
      { b with data := s.disk b.blockno, valid := true }
    rw [if_pos rfl] at here
    have locks := ok.locks.modify (i := r.slot)
      (f := fun b => { b with data := s.disk b.blockno, valid := true })
      rfl rfl rfl (fun _ => rfl) rfl
    refine CacheOk.returnBread ⟨ok.linked, locks, ?_, ok.breads⟩ member
      (congrArg Buf.valid here)
    exact ok.contents.fill empty sameDev here
      fun j other => Function.update_of_ne other ..

theorem leaves_finishBread (finished : s.finishBread g r = some t) :
    Leaves s t j := by
  obtain ⟨-, u, rfl, ⟨-, rfl⟩ | ⟨-, -, rfl⟩⟩ := finishBread_eq_some finished
  · exact ⟨rfl, fun inside => List.map_subset _ List.erase_subset inside, id⟩
  · refine ⟨?_, fun inside => List.map_subset _ List.erase_subset inside, id⟩
    exact part_eq (i := r.slot)
      (f := fun b => { b with data := s.disk b.blockno, valid := true })
      Buf.owner rfl rfl

/-- The buffer that a `bread` returns is held and unchanged. -/
theorem clean_finishBread (ok : CacheOk s)
    (finished : s.finishBread g r = some t) : Clean t r.pid r.slot := by
  obtain ⟨member, -⟩ := finishBread_eq_some finished
  obtain ⟨-, -, owner, unchanged⟩ := ok.locks.reads r member
  have leaves : Leaves s t r.slot := leaves_finishBread finished
  have apart : ((r :: s.reading.erase r).map Request.slot).Nodup :=
    ((List.perm_cons_erase member).map Request.slot).nodup_iff.mp ok.locks.apart
  refine ⟨⟨leaves.owner.trans owner, ?_⟩, fun inside => unchanged (leaves.changed inside)⟩
  obtain ⟨-, u, rfl, ⟨-, rfl⟩ | ⟨-, -, rfl⟩⟩ := finishBread_eq_some finished
  all_goals exact (List.nodup_cons.mp apart).1

theorem CacheOk.setData (ok : CacheOk s) (held : Held s pid i) :
    CacheOk (s.setData i data) := by
  refine ⟨ok.linked, ?_, ?_, ok.breads⟩
  · refine LocksOk.modify (ok.locks.setChanged fun j inside => ?_) rfl rfl rfl id rfl
    refine (List.mem_cons.mp inside).elim ?_ .inl
    rintro rfl
    refine .inr ⟨?_, held.2⟩
    change (s.buf j).owner ≠ none
    rw [held.1]
    exact Option.some_ne_none pid
  · exact ok.contents.setData (Function.update_self ..)
      fun j other => Function.update_of_ne other ..

theorem leaves_setData (other : j ≠ i) : Leaves s (s.setData i data) j where
  owner := congrArg Buf.owner (Function.update_of_ne other ..)
  reading := id
  changed inside := (List.mem_cons.mp inside).resolve_left other

theorem held_setData (held : Held s pid j) : Held (s.setData i data) pid j := by
  refine ⟨Eq.trans ?_ held.1, held.2⟩
  exact part_eq (i := i) (f := fun b => { b with data := data }) Buf.owner rfl rfl

/-- The locks do not depend on the flags of a valid buffer, and a stored buffer
is not a changed one any more. -/
theorem CacheOk.locks_store (ok : CacheOk s) (dirty : Bool) :
    LocksOk (s.cache.modify i fun b => { b with dirty := dirty, valid := true }).buf
      s.waiting s.reading s.appending s.releasing (s.changed.filter (· ≠ i)) := by
  refine LocksOk.modify (ok.locks.setChanged fun j inside => ?_) rfl rfl rfl
    (fun _ => rfl) rfl
  exact .inl (List.mem_of_mem_filter inside)

theorem CacheOk.logAppend (ok : CacheOk s) (member : (pid, i) ∈ s.appending) :
    CacheOk (s.logAppend pid i) := by
  have held : Held s pid i := ok.locks.appends (pid, i) member
  have valid : (s.cache.buf i).valid = true := valid_of_held ok held
  have same : (s.cache.modify i fun b => { b with dirty := true }) =
      s.cache.modify i fun b => { b with dirty := true, valid := true } := by
    simp only [LinkedCache.modify, valid]
  have locks := (ok.locks_store (i := i) true).setAppending
    (s.appending.erase (pid, i)) fun entry inside =>
      (ok.locks_store true).appends entry (List.mem_of_mem_erase inside)
  refine ⟨ok.linked, ?_, ?_, ok.breads⟩
  · rw [← same] at locks
    exact locks
  · refine ok.contents.store (dev_of_held ok held) true ?_
      (fun j other => Function.update_of_ne other ..) (fun _ _ => rfl) (.inl rfl)
    refine (Function.update_self ..).trans ?_
    rw [← valid]

theorem leaves_logAppend : Leaves s (s.logAppend pid i) j where
  owner := part_eq (i := i) (f := fun b => { b with dirty := true }) Buf.owner
    rfl rfl
  reading := id
  changed := List.mem_of_mem_filter

theorem bwrite_eq_some (wrote : s.bwrite g pid i = some t) :
    (s.buf i).owner = some pid ∧ (s.buf i).dev = rootdev ∧
      t = { s.modify i fun b => { b with dirty := false, valid := true } with
        disk := Function.update s.disk (s.buf i).blockno (s.buf i).data
        changed := s.changed.filter (· ≠ i)
        stored := Function.update s.stored (s.buf i).blockno (s.buf i).data } := by
  unfold CacheSystem.bwrite at wrote
  split at wrote
  · rename_i enabled
    exact ⟨enabled.1, enabled.2.1, (Option.some.inj wrote).symm⟩
  · cases wrote

theorem CacheOk.bwrite (ok : CacheOk s) (wrote : s.bwrite g pid i = some t) :
    CacheOk t := by
  obtain ⟨-, sameDev, rfl⟩ := bwrite_eq_some wrote
  refine ⟨ok.linked, ok.locks_store false, ?_, ok.breads⟩
  exact ok.contents.store sameDev false (Function.update_self ..)
    (fun j other => Function.update_of_ne other ..)
    (fun b other => Function.update_of_ne other ..)
    (.inr (Function.update_self ..))

theorem leaves_bwrite (wrote : s.bwrite g pid i = some t) : Leaves s t j := by
  obtain ⟨-, -, rfl⟩ := bwrite_eq_some wrote
  refine ⟨?_, id, List.mem_of_mem_filter⟩
  exact part_eq (i := i) (f := fun b => { b with dirty := false, valid := true })
    Buf.owner rfl rfl

theorem clean_bwrite (held : Held s pid i) (wrote : s.bwrite g pid i = some t) :
    Clean t pid i := by
  refine ⟨held.leaves (leaves_bwrite wrote), ?_⟩
  obtain ⟨-, -, rfl⟩ := bwrite_eq_some wrote
  simp

theorem brelse_eq_some (released : s.brelse pid i = some t) :
    (s.buf i).owner = some pid ∧
      t = { s.modify i fun b => { b with owner := none } with
        releasing := i :: s.releasing } := by
  unfold CacheSystem.brelse at released
  split at released
  · rename_i owner
    exact ⟨owner, (Option.some.inj released).symm⟩
  · cases released

theorem CacheOk.brelse (ok : CacheOk s) (clean : Clean s pid i)
    (idle : pid ∉ s.appending.map Prod.fst)
    (released : s.brelse pid i = some t) : CacheOk t := by
  obtain ⟨owner, rfl⟩ := brelse_eq_some released
  refine ⟨ok.linked, ?_, ok.contents.modify rfl rfl rfl rfl rfl, ok.breads⟩
  exact ok.locks.release owner clean.2 clean.1.2 idle (Function.update_self ..)
    fun j other => Function.update_of_ne other ..

theorem leaves_brelse (other : j ≠ i) (released : s.brelse pid i = some t) :
    Leaves s t j := by
  obtain ⟨-, rfl⟩ := brelse_eq_some released
  exact ⟨congrArg Buf.owner (Function.update_of_ne other ..), id, id⟩

theorem unref_eq_some (released : s.unref i = some t) :
    i ∈ s.releasing ∧ t = { s with
      cache := s.cache.unref i
      releasing := s.releasing.erase i } := by
  unfold CacheSystem.unref at released
  split at released
  · rename_i member
    exact ⟨member, (Option.some.inj released).symm⟩
  · cases released

theorem CacheOk.unref (ok : CacheOk s) (released : s.unref i = some t) :
    CacheOk t := by
  obtain ⟨member, rfl⟩ := unref_eq_some released
  refine ⟨ok.linked.unref i, ?_, ?_, ok.breads⟩
  · rw [LinkedCache.unref_buf]
    exact ok.locks.unref member (Function.update_self ..)
      fun j other => Function.update_of_ne other ..
  · rw [LinkedCache.unref_buf]
    exact ok.contents.modify rfl rfl rfl rfl rfl

theorem leaves_unref (released : s.unref i = some t) : Leaves s t j := by
  obtain ⟨-, rfl⟩ := unref_eq_some released
  refine ⟨?_, id, id⟩
  simp only [CacheSystem.buf, LinkedCache.unref_buf]
  exact LinkedCache.modify_part Buf.owner rfl

/-- A buffer that is dirty or referenced is not recycled. -/
def Keeps (s t : CacheSystem) : Prop :=
  ∀ i, (s.buf i).dirty = true ∨ 0 < (s.buf i).refcnt →
    (t.buf i).dev = (s.buf i).dev ∧ (t.buf i).blockno = (s.buf i).blockno

theorem keeps_refl (s : CacheSystem) : Keeps s s :=
  fun _ _ => ⟨rfl, rfl⟩

/-- Changing anything but the identity of a buffer recycles nothing. -/
theorem keeps_modify {f : Buf → Buf} (cache : t.cache = s.cache.modify i f)
    (sameDev : (f (s.buf i)).dev = (s.buf i).dev)
    (sameBlock : (f (s.buf i)).blockno = (s.buf i).blockno) : Keeps s t :=
  fun _ _ => ⟨part_eq Buf.dev cache sameDev, part_eq Buf.blockno cache sameBlock⟩

theorem keeps_bget (ok : CacheOk s)
    (got : s.bget pid dev blockno = some (i, t)) : Keeps s t := by
  obtain ⟨⟨k, cache⟩, found, same⟩ := Option.map_eq_some_iff.mp got
  obtain ⟨rfl, rfl⟩ := Prod.mk.inj same
  obtain ⟨-, -, rfl⟩ | ⟨-, unused, clean, rfl⟩ :=
    LinkedCache.bget_cases ok.linked found
  · exact keeps_modify (i := k) (f := fun b => { b with refcnt := b.refcnt + 1 })
      rfl rfl rfl
  · intro j used
    have other : j ≠ k := by
      rintro rfl
      refine used.elim (fun dirty => ?_) fun referenced => ?_
      · exact absurd (clean.symm.trans dirty) Bool.false_ne_true
      · exact Nat.ne_of_gt referenced unused
    have same := LinkedCache.modify_buf s.cache k j fun b =>
      { b with
        dev := dev
        blockno := blockno
        valid := false
        dirty := false
        refcnt := 1 }
    rw [if_neg other] at same
    exact ⟨congrArg Buf.dev same, congrArg Buf.blockno same⟩

theorem keeps_acquire (acquired : s.acquire r = some t) : Keeps s t := by
  obtain ⟨-, -, rfl⟩ := acquire_eq_some acquired
  exact keeps_modify (f := fun b => { b with owner := some r.pid }) rfl rfl rfl

theorem keeps_finishBread (finished : s.finishBread g r = some t) :
    Keeps s t := by
  obtain ⟨-, u, rfl, ⟨-, rfl⟩ | ⟨-, -, rfl⟩⟩ := finishBread_eq_some finished
  · exact keeps_refl u
  · exact keeps_modify (i := r.slot)
      (f := fun b => { b with data := s.disk b.blockno, valid := true }) rfl rfl rfl

theorem keeps_setData : Keeps s (s.setData i data) :=
  keeps_modify (i := i) (f := fun b => { b with data := data }) rfl rfl rfl

theorem keeps_logAppend : Keeps s (s.logAppend pid i) :=
  keeps_modify (i := i) (f := fun b => { b with dirty := true }) rfl rfl rfl

theorem keeps_bwrite (wrote : s.bwrite g pid i = some t) : Keeps s t := by
  obtain ⟨-, -, rfl⟩ := bwrite_eq_some wrote
  exact keeps_modify (i := i)
    (f := fun b => { b with dirty := false, valid := true }) rfl rfl rfl

theorem keeps_brelse (released : s.brelse pid i = some t) : Keeps s t := by
  obtain ⟨-, rfl⟩ := brelse_eq_some released
  exact keeps_modify (i := i) (f := fun b => { b with owner := none }) rfl rfl rfl

theorem keeps_unref (released : s.unref i = some t) : Keeps s t := by
  obtain ⟨-, rfl⟩ := unref_eq_some released
  intro j _
  simp only [CacheSystem.buf, LinkedCache.unref_buf]
  exact ⟨LinkedCache.modify_part Buf.dev rfl, LinkedCache.modify_part Buf.blockno rfl⟩

/-- The buffers that the process inside `commit` or `recover_from_log` holds.
The one it has changed and not yet written need not agree with what was
stored. -/
def WorkerHolds (s : CacheSystem) (pid : Pid) : LogPc → Prop
  | .head _ _ => True
  | .headData _ i => Clean s pid i
  | .headWrite _ i => Held s pid i
  | .headRelse _ i => Clean s pid i
  | .copyLog _ _ _ => True
  | .copyHome _ _ lbuf _ => Clean s pid lbuf
  | .copyData kind _ lbuf dbuf =>
      Clean s pid (LogSystem.copySource kind lbuf dbuf) ∧
        Clean s pid (LogSystem.copyTarget kind lbuf dbuf) ∧ lbuf ≠ dbuf
  | .copyWrite kind _ lbuf dbuf =>
      Clean s pid (LogSystem.copySource kind lbuf dbuf) ∧
        Held s pid (LogSystem.copyTarget kind lbuf dbuf) ∧ lbuf ≠ dbuf
  | .copyRelseSource kind _ lbuf dbuf =>
      Clean s pid (LogSystem.copySource kind lbuf dbuf) ∧
        Clean s pid (LogSystem.copyTarget kind lbuf dbuf) ∧ lbuf ≠ dbuf
  | .copyRelseTarget kind _ lbuf dbuf =>
      Clean s pid (LogSystem.copyTarget kind lbuf dbuf)
  | .finish => True

/-- Steps that leave the worker its buffers. -/
theorem WorkerHolds.leaves {pc : LogPc} (holds : WorkerHolds s pid pc)
    (leaves : ∀ j, (s.buf j).owner = some pid → Leaves s t j) :
    WorkerHolds t pid pc := by
  have held {j : Slot} (held : Held s pid j) : Held t pid j :=
    held.leaves (leaves j held.1)
  have clean {j : Slot} (clean : Clean s pid j) : Clean t pid j :=
    clean.leaves (leaves j clean.1.1)
  cases pc with
  | head kind bread => trivial
  | headData kind i => exact clean holds
  | headWrite kind i => exact held holds
  | headRelse kind i => exact clean holds
  | copyLog kind tail bread => trivial
  | copyHome kind tail lbuf bread => exact clean holds
  | copyData kind tail lbuf dbuf => exact ⟨clean holds.1, clean holds.2.1, holds.2.2⟩
  | copyWrite kind tail lbuf dbuf => exact ⟨clean holds.1, held holds.2.1, holds.2.2⟩
  | copyRelseSource kind tail lbuf dbuf =>
      exact ⟨clean holds.1, clean holds.2.1, holds.2.2⟩
  | copyRelseTarget kind tail lbuf dbuf => exact clean holds
  | finish => trivial

/-- The invariant. -/
structure Ok (s : CacheSystem) : Prop where
  cache : CacheOk s
  worker : ∀ w ∈ s.worker,
    w.pid ∉ s.appending.map Prod.fst ∧ WorkerHolds s w.pid w.pc

theorem source_ne_target {kind : CopyKind} {lbuf dbuf : Slot} (other : lbuf ≠ dbuf) :
    LogSystem.copySource kind lbuf dbuf ≠ LogSystem.copyTarget kind lbuf dbuf := by
  cases kind
  · exact other.symm
  · exact other

/-- What a call does to the rest of the state. -/
structure Call (s t : CacheSystem) : Prop where
  ok : CacheOk t
  keeps : Keeps s t
  appending : t.appending ⊆ s.appending
  worker : t.worker = s.worker

theorem call_bget (ok : CacheOk s)
    (got : s.bget pid dev blockno = some (i, t)) : Call s t := by
  refine ⟨ok.bget got, keeps_bget ok got, ?_, ?_⟩
  all_goals
    obtain ⟨⟨k, cache⟩, -, same⟩ := Option.map_eq_some_iff.mp got
    obtain ⟨rfl, rfl⟩ := Prod.mk.inj same
  · exact List.Subset.refl _
  · rfl

theorem call_acquire (ok : CacheOk s) (acquired : s.acquire r = some t) :
    Call s t := by
  refine ⟨ok.acquire acquired, keeps_acquire acquired, ?_, ?_⟩
  all_goals obtain ⟨-, -, rfl⟩ := acquire_eq_some acquired
  · exact List.Subset.refl _
  · rfl

theorem call_finishBread (ok : CacheOk s)
    (finished : s.finishBread g r = some t) : Call s t := by
  refine ⟨ok.finishBread finished, keeps_finishBread finished, ?_, ?_⟩
  all_goals
    obtain ⟨-, u, rfl, ⟨-, rfl⟩ | ⟨-, -, rfl⟩⟩ := finishBread_eq_some finished
  · exact List.Subset.refl _
  · exact List.Subset.refl _
  · rfl
  · rfl

theorem call_setData (ok : CacheOk s) (held : Held s pid i) :
    Call s (s.setData i data) :=
  ⟨ok.setData held, keeps_setData, List.Subset.refl _, rfl⟩

theorem call_logAppend (ok : CacheOk s) (member : (pid, i) ∈ s.appending) :
    Call s (s.logAppend pid i) :=
  ⟨ok.logAppend member, keeps_logAppend, List.erase_subset, rfl⟩

theorem call_bwrite (ok : CacheOk s) (wrote : s.bwrite g pid i = some t) :
    Call s t := by
  refine ⟨ok.bwrite wrote, keeps_bwrite wrote, ?_, ?_⟩
  all_goals obtain ⟨-, -, rfl⟩ := bwrite_eq_some wrote
  · exact List.Subset.refl _
  · rfl

theorem call_brelse (ok : CacheOk s) (clean : Clean s pid i)
    (idle : pid ∉ s.appending.map Prod.fst)
    (released : s.brelse pid i = some t) : Call s t := by
  refine ⟨ok.brelse clean idle released, keeps_brelse released, ?_, ?_⟩
  all_goals obtain ⟨-, rfl⟩ := brelse_eq_some released
  · exact List.Subset.refl _
  · rfl

theorem call_unref (ok : CacheOk s) (released : s.unref i = some t) :
    Call s t := by
  refine ⟨ok.unref released, keeps_unref released, ?_, ?_⟩
  all_goals obtain ⟨-, rfl⟩ := unref_eq_some released
  · exact List.Subset.refl _
  · rfl

/-- A call of another process leaves the worker its buffers. -/
theorem Call.client (call : Call s t) (ok : Ok s)
    (leaves : ∀ w ∈ s.worker, ∀ j, (s.buf j).owner = some w.pid → Leaves s t j) :
    Ok t ∧ Keeps s t := by
  refine ⟨⟨call.ok, fun w member => ?_⟩, call.keeps⟩
  rw [call.worker] at member
  obtain ⟨idle, holds⟩ := ok.worker w member
  refine ⟨fun inside => idle ?_, holds.leaves (leaves w member)⟩
  exact List.map_subset _ call.appending inside

/-- After a call of the worker it stands elsewhere and holds the buffers that
it should. -/
theorem Call.goto {w : LogWorker} {pc : LogPc} (call : Call s t)
    (idle : w.pid ∉ s.appending.map Prod.fst)
    (holds : WorkerHolds t w.pid pc) :
    Ok (t.goto w pc) ∧ Keeps s (t.goto w pc) := by
  have moved : CacheOk (t.goto w pc) :=
    ⟨call.ok.linked, call.ok.locks, call.ok.contents, call.ok.breads⟩
  refine ⟨⟨moved, fun w' member => ?_⟩, call.keeps⟩
  cases member
  refine ⟨fun inside => idle ?_, holds.leaves fun j _ => ⟨rfl, id, id⟩⟩
  exact List.map_subset _ call.appending inside

/-- One step of a `bread` by the worker: the buffers that it has stay with it,
and the one it gets is a different one. -/
theorem breadStep_ok {w : LogWorker} {again : BreadPc → LogPc}
    {done : Slot → LogPc} {bread : BreadPc} (ok : CacheOk s)
    (idle : w.pid ∉ s.appending.map Prod.fst)
    (holdsAgain : ∀ u pc, (∀ j, (s.buf j).owner = some w.pid → Leaves s u j) →
      WorkerHolds u w.pid (again pc))
    (holdsDone : ∀ u i, (∀ j, (s.buf j).owner = some w.pid → Leaves s u j) →
      Clean u w.pid i → (∀ j, Held s w.pid j → j ≠ i) →
      WorkerHolds u w.pid (done i))
    (stepped : s.breadStep g w blockno again done bread = some t) :
    Ok t ∧ Keeps s t := by
  cases bread with
  | get =>
      obtain ⟨⟨i, u⟩, got, rfl⟩ := Option.map_eq_some_iff.mp stepped
      refine (call_bget ok got).goto idle (holdsAgain u (.lock i) ?_)
      exact fun j _ => leaves_bget ok got
  | lock i =>
      obtain ⟨u, acquired, rfl⟩ := Option.map_eq_some_iff.mp stepped
      refine (call_acquire ok acquired).goto idle (holdsAgain u (.fill i) ?_)
      intro j owner
      refine leaves_acquire acquired ?_
      rw [owner]
      exact Option.some_ne_none w.pid
  | fill i =>
      obtain ⟨u, finished, rfl⟩ := Option.map_eq_some_iff.mp stepped
      refine (call_finishBread ok finished).goto idle (holdsDone u i ?_ ?_ ?_)
      · exact fun j _ => leaves_finishBread finished
      · exact clean_finishBread ok finished
      · rintro j held rfl
        exact held.2 (List.mem_map_of_mem (finishBread_eq_some finished).1)

/-- After a copying loop the worker holds nothing. -/
theorem Call.copyTest {w : LogWorker} {kind : CopyKind} {tail : Nat}
    (call : Call s t) (idle : w.pid ∉ s.appending.map Prod.fst) :
    Ok (t.copyTest w kind tail) ∧ Keeps s (t.copyTest w kind tail) := by
  unfold CacheSystem.copyTest
  split
  · exact call.goto idle trivial
  · cases kind with
    | toLog => exact call.goto idle trivial
    | toHome =>
        have cleared : Call s { t with lh := [] } :=
          ⟨⟨call.ok.linked, call.ok.locks, call.ok.contents, call.ok.breads⟩,
            call.keeps, call.appending, call.worker⟩
        exact cleared.goto idle trivial

/-- One step of `commit` or `recover_from_log`. -/
theorem workStep_ok {w : LogWorker} (ok : Ok s) (member : w ∈ s.worker)
    (stepped : s.workStep g w = some t) : Ok t ∧ Keeps s t := by
  obtain ⟨idle, holds⟩ := ok.worker w member
  have cache := ok.cache
  unfold CacheSystem.workStep at stepped
  cases place : w.pc with
  | head kind bread =>
      simp only [place] at stepped
      refine breadStep_ok cache idle ?_ ?_ stepped
      · exact fun _ _ _ => trivial
      · exact fun _ _ _ clean _ => clean
  | headData kind i =>
      rw [place] at holds
      cases kind with
      | read =>
          simp only [place, Option.some.injEq] at stepped
          subst stepped
          have read : Call s { s with lh := headerEntries (s.buf i).data } :=
            ⟨⟨cache.linked, cache.locks, cache.contents, cache.breads⟩,
              keeps_refl s, List.Subset.refl _, rfl⟩
          exact read.goto idle holds
      | commit =>
          simp only [place, Option.some.injEq] at stepped
          subst stepped
          exact (call_setData cache holds.1).goto idle (held_setData holds.1)
      | clear =>
          simp only [place, Option.some.injEq] at stepped
          subst stepped
          exact (call_setData cache holds.1).goto idle (held_setData holds.1)
  | headWrite kind i =>
      rw [place] at holds
      simp only [place] at stepped
      obtain ⟨u, wrote, rfl⟩ := Option.map_eq_some_iff.mp stepped
      exact (call_bwrite cache wrote).goto idle (clean_bwrite holds wrote)
  | headRelse kind i =>
      rw [place] at holds
      simp only [place] at stepped
      obtain ⟨u, released, rfl⟩ := Option.map_eq_some_iff.mp stepped
      have call := call_brelse cache holds idle released
      cases kind with
      | read => exact call.copyTest idle
      | commit => exact call.copyTest idle
      | clear => exact call.goto idle trivial
  | copyLog kind tail bread =>
      simp only [place] at stepped
      refine breadStep_ok cache idle ?_ ?_ stepped
      · exact fun _ _ _ => trivial
      · exact fun _ _ _ clean _ => clean
  | copyHome kind tail lbuf bread =>
      rw [place] at holds
      simp only [place] at stepped
      refine breadStep_ok cache idle (fun u _ leaves => ?_)
        (fun u i leaves clean other => ?_) stepped
      · exact Clean.leaves holds (leaves lbuf holds.1.1)
      · have first : Clean u w.pid lbuf := Clean.leaves holds (leaves lbuf holds.1.1)
        cases kind with
        | toLog => exact ⟨clean, first, other lbuf holds.1⟩
        | toHome => exact ⟨first, clean, other lbuf holds.1⟩
  | copyData kind tail lbuf dbuf =>
      rw [place] at holds
      obtain ⟨source, target, other⟩ := holds
      simp only [place, Option.some.injEq] at stepped
      subst stepped
      refine (call_setData cache target.1).goto idle
        ⟨source.leaves (leaves_setData (source_ne_target other)), ?_, other⟩
      exact held_setData target.1
  | copyWrite kind tail lbuf dbuf =>
      rw [place] at holds
      obtain ⟨source, target, other⟩ := holds
      simp only [place] at stepped
      obtain ⟨u, wrote, rfl⟩ := Option.map_eq_some_iff.mp stepped
      exact (call_bwrite cache wrote).goto idle
        ⟨source.leaves (leaves_bwrite wrote), clean_bwrite target wrote, other⟩
  | copyRelseSource kind tail lbuf dbuf =>
      rw [place] at holds
      obtain ⟨source, target, other⟩ := holds
      simp only [place] at stepped
      obtain ⟨u, released, rfl⟩ := Option.map_eq_some_iff.mp stepped
      refine (call_brelse cache source idle released).goto idle ?_
      exact target.leaves (leaves_brelse (source_ne_target other).symm released)
  | copyRelseTarget kind tail lbuf dbuf =>
      rw [place] at holds
      simp only [place] at stepped
      obtain ⟨u, released, rfl⟩ := Option.map_eq_some_iff.mp stepped
      exact (call_brelse cache holds idle released).copyTest idle
  | finish =>
      simp only [place, Option.some.injEq] at stepped
      subst stepped
      have ended : CacheOk { s with committing := false, worker := none } :=
        ⟨cache.linked, cache.locks, cache.contents, cache.breads⟩
      exact ⟨⟨ended, nofun⟩, keeps_refl s⟩

/-- Another process does not own what the worker owns. -/
theorem ne_of_client {w : LogWorker} (client : s.Client pid)
    (member : w ∈ s.worker) (owner : (s.buf i).owner = some pid)
    (held : (s.buf j).owner = some w.pid) : j ≠ i := by
  rintro rfl
  have same : some w.pid = some pid := held.symm.trans owner
  exact (client w member).2 (Option.some.inj same)

theorem logWrite_eq_some (tested : s.logWrite g pid i = some t) :
    t = { s with appending := (pid, i) :: s.appending } := by
  unfold CacheSystem.logWrite at tested
  split at tested
  · cases tested
  · split at tested
    · cases tested
    · exact (Option.some.inj tested).symm

theorem logWrite_ok (ok : Ok s) (ready : s.Ready pid)
    (owner : (s.buf i).owner = some pid)
    (tested : s.logWrite g pid i = some t) : Ok t ∧ Keeps s t := by
  have cache := ok.cache
  cases logWrite_eq_some tested
  refine ⟨⟨⟨cache.linked, ?_, cache.contents, cache.breads⟩, fun w member => ?_⟩,
    keeps_refl s⟩
  · refine cache.locks.setAppending _ fun entry inside => ?_
    rcases List.mem_cons.mp inside with rfl | inside
    · exact held_of_ready cache ready owner
    · exact cache.locks.appends entry inside
  · obtain ⟨idle, holds⟩ := ok.worker w member
    refine ⟨?_, holds.leaves fun j _ => ⟨rfl, id, id⟩⟩
    exact List.not_mem_cons_of_ne_of_not_mem (ready.1 w member).2 idle

theorem beginOp_ok (ok : Ok s) (begun : s.beginOp = some t) :
    Ok t ∧ Keeps s t := by
  have cache := ok.cache
  unfold CacheSystem.beginOp at begun
  split at begun
  · cases begun
  · split at begun
    · cases begun
    · cases begun
      refine ⟨⟨⟨cache.linked, cache.locks, cache.contents, cache.breads⟩,
        fun w member => ?_⟩, keeps_refl s⟩
      obtain ⟨idle, holds⟩ := ok.worker w member
      exact ⟨idle, holds.leaves fun j _ => ⟨rfl, id, id⟩⟩

theorem endOp_ok (ok : Ok s) (ready : s.Ready pid)
    (ended : s.endOp pid = some t) : Ok t ∧ Keeps s t := by
  have cache := ok.cache
  have counted (outstanding : Nat) (committing : Bool) :
      CacheOk { s with outstanding := outstanding, committing := committing } :=
    ⟨cache.linked, cache.locks, cache.contents, cache.breads⟩
  unfold CacheSystem.endOp at ended
  dsimp only at ended
  split at ended
  · cases ended
  · split at ended
    · have call : Call s
          { s with outstanding := s.outstanding - 1, committing := true } :=
        ⟨counted _ _, keeps_refl s, List.Subset.refl _, rfl⟩
      have idle := ready.2.2.2
      split at ended
      · cases ended
        exact call.goto (w := ⟨pid, false, .finish⟩) idle trivial
      · cases ended
        exact call.goto (w := ⟨pid, false, .finish⟩) idle trivial
    · cases ended
      have call : Call s { s with outstanding := s.outstanding - 1 } :=
        ⟨counted _ _, keeps_refl s, List.Subset.refl _, rfl⟩
      exact call.client ok fun _ _ j _ => ⟨rfl, id, id⟩

/-- One step keeps the invariant and recycles no buffer in use. -/
theorem step_ok {label : Label} (ok : Ok s) (stepped : s.step g label = some t) :
    Ok t ∧ Keeps s t := by
  have cache := ok.cache
  cases label with
  | bget pid dev blockno =>
      obtain ⟨-, taken⟩ := Option.ite_none_right_eq_some.mp stepped
      obtain ⟨⟨i, u⟩, got, rfl⟩ := Option.map_eq_some_iff.mp taken
      exact (call_bget cache got).client ok fun _ _ _ _ => leaves_bget cache got
  | acquire r =>
      obtain ⟨-, acquired⟩ := Option.ite_none_right_eq_some.mp stepped
      refine (call_acquire cache acquired).client ok fun w _ j owner => ?_
      refine leaves_acquire acquired ?_
      rw [owner]
      exact Option.some_ne_none w.pid
  | finishBread r =>
      obtain ⟨-, finished⟩ := Option.ite_none_right_eq_some.mp stepped
      exact (call_finishBread cache finished).client ok
        fun _ _ _ _ => leaves_finishBread finished
  | modify pid i data =>
      obtain ⟨⟨ready, owner⟩, changed⟩ := Option.ite_none_right_eq_some.mp stepped
      cases changed
      refine (call_setData cache (held_of_ready cache ready owner)).client ok ?_
      exact fun w member j held =>
        leaves_setData (ne_of_client ready.1 member owner held)
  | logWrite pid i =>
      obtain ⟨⟨ready, owner⟩, tested⟩ := Option.ite_none_right_eq_some.mp stepped
      exact logWrite_ok ok ready owner tested
  | logAppend pid i =>
      obtain ⟨⟨-, member⟩, appended⟩ := Option.ite_none_right_eq_some.mp stepped
      cases appended
      exact (call_logAppend cache member).client ok fun _ _ _ _ => leaves_logAppend
  | bwrite pid i =>
      obtain ⟨-, wrote⟩ := Option.ite_none_right_eq_some.mp stepped
      exact (call_bwrite cache wrote).client ok fun _ _ _ _ => leaves_bwrite wrote
  | brelse pid i =>
      obtain ⟨⟨ready, unchanged⟩, released⟩ :=
        Option.ite_none_right_eq_some.mp stepped
      have owner := (brelse_eq_some released).1
      have clean : Clean s pid i := ⟨held_of_ready cache ready owner, unchanged⟩
      refine (call_brelse cache clean ready.2.2.2 released).client ok ?_
      exact fun w member j held =>
        leaves_brelse (ne_of_client ready.1 member owner held) released
  | unref i => exact (call_unref cache stepped).client ok fun _ _ _ _ => leaves_unref stepped
  | beginOp pid =>
      obtain ⟨-, begun⟩ := Option.ite_none_right_eq_some.mp stepped
      exact beginOp_ok ok begun
  | endOp pid =>
      obtain ⟨⟨ready, -⟩, ended⟩ := Option.ite_none_right_eq_some.mp stepped
      exact endOp_ok ok ready ended
  | work =>
      obtain ⟨w, member, worked⟩ := Option.bind_eq_some_iff.mp stepped
      exact workStep_ok ok member worked

theorem ok_of_start (start : Start s) : Ok s := by
  obtain ⟨cache, waiting, reading, appending, releasing, changed, worker, stored,
    breads⟩ := start
  have buf (i : Slot) : s.cache.buf i = ⟨false, false, 0, 0, 0, none, fun _ => 0⟩ := by
    rw [cache]
    rfl
  refine ⟨⟨cache ▸ LinkedCache.linked_binit, ?_, ?_, ?_⟩, fun w member => ?_⟩
  · rw [waiting, reading, appending, releasing, changed]
    refine ⟨fun i => ?_, nofun, nofun, List.nodup_nil, fun i locked => ?_, nofun, nofun⟩
    · rw [buf i]
      rfl
    · rw [buf i] at locked
      exact absurd rfl locked
  · refine ⟨fun i j first => ?_, fun i valid => ?_, fun i dirty => ?_,
      fun i valid => ?_, fun b _ => congrFun stored.symm b⟩
    · rw [buf i] at first
      cases first
    · rw [buf i] at valid
      cases valid
    · rw [buf i] at dirty
      cases dirty
    · rw [buf i] at valid
      cases valid
  · rw [breads]
    nofun
  · rw [appending, worker w member]
    exact ⟨List.not_mem_nil, trivial⟩

/-- No block of disk 1 has two buffers; the links form one ring through the head
with every buffer once, forwards along `next` and backwards along `prev`; the
next step recycles no buffer that is dirty or referenced; and every `bread` so
far returned the bytes last stored for its block. -/
structure Coherent (g : Layout) (s : CacheSystem) : Prop where
  unique : ∀ i j, (s.buf i).dev = 1 → (s.buf j).dev = 1 →
    (s.buf i).blockno = (s.buf j).blockno → i = j
  ring : ∃ order : List Slot, order.Perm (List.finRange nbuf) ∧
    (cycle order).IsChain (fun x y => s.cache.links.next x = y) ∧
    (cycle order.reverse).IsChain (fun x y => s.cache.links.prev x = y)
  recycled : ∀ label t, s.step g label = some t → Keeps s t
  breads : ∀ blockno returned last, (blockno, returned, last) ∈ s.breads →
    returned = last

/-- The cache is coherent in every state of every run. -/
theorem coherent_of_run {g : Layout} {s t : CacheSystem} {labels : List Label}
    (start : Start s) (ran : run (CacheSystem.step g) s labels = some t) :
    Coherent g t := by
  have ok : Ok t := invariant_of_run (fun ok stepped => (step_ok ok stepped).1)
    (ok_of_start start) ran
  obtain ⟨order, all, ring⟩ := ok.cache.linked
  refine ⟨ok.cache.contents.unique, ⟨order, all, ring.next, ring.prev⟩,
    fun label u stepped => (step_ok ok stepped).2, ?_⟩
  intro blockno returned last inside
  exact ok.cache.breads (blockno, returned, last) inside

/-- A log of `LOGSIZE` blocks from block 2 on, on a disk of `FSSIZE` blocks. -/
def smallLayout : Layout where
  log := ⟨2, logsize, Nat.le_refl _⟩
  disksize := fssize

/-- The kernel after `binit`, with a disk of zeros and an empty log. -/
def bootedCache : CacheSystem where
  cache := LinkedCache.binit
  disk := fun _ _ => 0
  waiting := []
  reading := []
  appending := []
  releasing := []
  changed := []
  lh := []
  outstanding := 0
  committing := false
  worker := none
  stored := fun _ _ => 0
  breads := []

/-- A process changes block 40 in a transaction of its own, which commits, and
another process reads the block. -/
def commitThenRead : List Label :=
  [Label.beginOp 7, .bget 7 1 40, .acquire ⟨7, 0, 1, 40⟩, .finishBread ⟨7, 0, 1, 40⟩,
    .modify 7 0 fun _ => 5, .logWrite 7 0, .logAppend 7 0, .brelse 7 0, .unref 0,
    .endOp 7] ++ List.replicate 33 Label.work ++
  [Label.bget 9 1 40, .acquire ⟨9, 0, 1, 40⟩, .finishBread ⟨9, 0, 1, 40⟩]

theorem start_bootedCache : Start bootedCache :=
  ⟨rfl, rfl, rfl, rfl, rfl, rfl, nofun, rfl, rfl⟩

/-- The run is possible, its last `bread` returns the changed block, and the
cache is coherent after it. -/
theorem commitThenRead_coherent :
    ∃ t, run (CacheSystem.step smallLayout) bootedCache commitThenRead = some t ∧
      t.worker.isNone ∧
      t.breads.head?.map (fun entry => (entry.1, entry.2.1 0)) = some (40, 5) ∧
      Coherent smallLayout t := by
  have ran : ((run (CacheSystem.step smallLayout) bootedCache commitThenRead).map
      fun t => (t.worker.isNone,
        t.breads.head?.map fun entry => (entry.1, entry.2.1 0))) =
      some (true, some (40, 5)) := by
    decide +kernel
  obtain ⟨t, reached, seen⟩ := Option.map_eq_some_iff.mp ran
  obtain ⟨ended, returned⟩ := Prod.mk.inj seen
  exact ⟨t, reached, ended, returned, coherent_of_run start_bootedCache reached⟩

end Xv6.Coherence
