import Xv6.RecordedPrograms
import Xv6.SharedWrites

/-!
# What a write logs

The code of `filewrite` down to `balloc` with a record of the blocks that it gives
to `log_write`.  A piece of a write has at most four data blocks, of which the first
is there already if there are four, and each new block has its bit in some bitmap
block.  With an indirect block and the inode this makes `MAXOPBLOCKS` blocks.
-/

namespace Xv6.Blocks

open StateTriples RecordedPrograms

/-- Code that records the blocks it gives to `log_write`. -/
abbrev Tx := Recorded FsState Nat FsPanic

namespace Logged

/-- `bzero` -/
def bzero (b : Nat) : Tx Unit := do
  lift (Blocks.bzero b)
  note b

/-- `balloc` -/
def balloc : Tx Nat := do
  let s ← lift get
  match (List.range s.sb.size).find? fun b => !s.bit b with
  | some b =>
      lift (set (s.mark b))
      note (s.sb.bblock b)
      bzero b
      return b
  | none => lift (throw .outOfBlocks)

/-- `iupdate` -/
def iupdate (i : Nat) : Tx Unit := do
  let s ← lift get
  lift (Blocks.iupdate i)
  note (s.sb.iblock i)

/-- `if((addr = ip->addrs[k]) == 0) ip->addrs[k] = addr = balloc(ip->dev);` -/
def bmapAddr (i : Nat) (k : Fin (ndirect + 1)) : Tx Nat := do
  let s ← lift get
  if (s.inode i).addrs k = 0 then
    let b ← balloc
    lift (modify fun s => s.setInode i ((s.inode i).setAddr k (UInt32.ofNat b)))
    return b
  else return ((s.inode i).addrs k).toNat

/-- The part of `bmap` after the indirect block is loaded. -/
def bmapIndirect (addr j : Nat) : Tx Nat := do
  let s ← lift get
  let a := ByteFields.getWord (s.disk addr) (4 * j)
  if a = 0 then
    let b ← balloc
    lift (modify fun s =>
      s.setBlock addr (ByteFields.setWord (s.disk addr) (4 * j) b))
    note addr
    return b
  else return a

/-- `bmap` -/
def bmap (i bn : Nat) : Tx Nat :=
  if direct : bn < ndirect then bmapAddr i ⟨bn, Nat.lt_succ_of_lt direct⟩
  else if bn - ndirect < nindirect then do
    let addr ← bmapAddr i (Fin.last ndirect)
    bmapIndirect addr (bn - ndirect)
  else lift (throw .outOfRange)

/-- The loop of `writei` -/
def writeBytes (i : Nat) : Nat → (Nat → UInt8) → Nat → Nat → Tx Nat
  | 0, _, off, _ => return off
  | fuel + 1, src, off, left =>
      if left = 0 then return off
      else do
        let b ← bmap i (off / bsize)
        let m := min left (bsize - off % bsize)
        lift (modify fun s => s.setBlock b (copyInto (s.disk b) (off % bsize) m src))
        note b
        writeBytes i fuel (fun k => src (k + m)) (off + m) (left - m)

/-- `writei` -/
def writei (devsw : UInt16 → UInt32 → Int) (i : Nat) (src : Nat → UInt8) (off n : UInt32) :
    Tx Int := do
  let s ← lift get
  let ip := s.inode i
  if ip.type = tDev then return devsw ip.major n
  else if ip.size < off ∨ off + n < off then return -1
  else if maxfile * bsize < (off + n).toNat then return -1
  else
    let last ← writeBytes i n.toNat src off.toNat n.toNat
    if 0 < n ∧ ip.size.toNat < last then
      lift (modify fun s => s.setInode i { s.inode i with size := UInt32.ofNat last })
      iupdate i
    return n.toNat

/-- The loop of `filewrite` from `begin_op` to `end_op`. -/
def writePiece (devsw : UInt16 → UInt32 → Int) (f : File) (addr : Nat → UInt8) (n1 : UInt32) :
    Tx (Int × File) := do
  lift (ilock f.ip)
  let r ← writei devsw f.ip addr f.off n1
  return (r, if r > 0 then { f with off := f.off + UInt32.ofNat r.toNat } else f)

/-! ## The same code -/

theorem erases_bzero (b : Nat) : Erases (bzero b) (Blocks.bzero b) :=
  (Erases.lift _).then_note b

theorem erases_balloc : Erases balloc Blocks.balloc := by
  refine (Erases.lift get).bind fun s => ?_
  cases (List.range s.sb.size).find? fun b => !s.bit b with
  | none => exact Erases.lift _
  | some b =>
      refine (Erases.lift _).bind fun _ => Erases.note_bind _ ?_
      exact (erases_bzero b).bind fun _ => Erases.pure b

theorem erases_iupdate (i : Nat) : Erases (iupdate i) (Blocks.iupdate i) :=
  ⟨fun _ _ => rfl⟩

theorem erases_bmapAddr (i : Nat) (k : Fin (ndirect + 1)) :
    Erases (bmapAddr i k) (Blocks.bmapAddr i k) := by
  refine (Erases.lift get).bind fun s => Erases.ite (fun _ => ?_) fun _ => Erases.pure _
  exact erases_balloc.bind fun b => (Erases.lift _).bind fun _ => Erases.pure b

theorem erases_bmapIndirect (addr j : Nat) :
    Erases (bmapIndirect addr j) (Blocks.bmapIndirect addr j) := by
  refine (Erases.lift get).bind fun s => Erases.ite (fun _ => ?_) fun _ => Erases.pure _
  refine erases_balloc.bind fun b => (Erases.lift _).bind fun _ => ?_
  exact Erases.note_bind _ (Erases.pure b)

theorem erases_bmap (i bn : Nat) : Erases (bmap i bn) (Blocks.bmap i bn) := by
  unfold bmap Blocks.bmap
  split
  · exact erases_bmapAddr ..
  · refine Erases.ite (fun _ => ?_) fun _ => Erases.lift _
    exact (erases_bmapAddr ..).bind fun addr => erases_bmapIndirect ..

theorem erases_writeBytes (i fuel : Nat) (src : Nat → UInt8) (off left : Nat) :
    Erases (writeBytes i fuel src off left) (Blocks.writeBytes i fuel src off left) := by
  induction fuel generalizing src off left with
  | zero => exact Erases.pure off
  | succ fuel ih =>
      unfold writeBytes Blocks.writeBytes
      refine Erases.ite (fun _ => Erases.pure off) fun _ => ?_
      refine (erases_bmap ..).bind fun b => (Erases.lift _).bind fun _ => ?_
      exact Erases.note_bind b (ih ..)

theorem erases_writei (devsw : UInt16 → UInt32 → Int) (i : Nat) (src : Nat → UInt8)
    (off n : UInt32) : Erases (writei devsw i src off n) (Blocks.writei devsw i src off n) := by
  refine (Erases.lift get).bind fun s => ?_
  refine Erases.ite (fun _ => Erases.pure _) fun _ => ?_
  refine Erases.ite (fun _ => Erases.pure _) fun _ => ?_
  refine Erases.ite (fun _ => Erases.pure _) fun _ => ?_
  refine (erases_writeBytes ..).bind fun last => ?_
  split
  · refine (Erases.lift _).bind fun _ => (erases_iupdate i).bind fun _ => Erases.pure _
  · exact Erases.pure _

/-- The record is all that is added. -/
theorem erases_writePiece (devsw : UInt16 → UInt32 → Int) (f : File) (addr : Nat → UInt8)
    (n1 : UInt32) :
    Erases (writePiece devsw f addr n1) (Blocks.writePiece devsw f addr n1) :=
  (Erases.lift _).bind fun _ => (erases_writei ..).bind fun _ => Erases.pure _

/-! ## The blocks that are logged -/

/-- The indirect block of a file and its bitmap block. -/
def indirectBlocks (s : FsState) (i : Nat) : Finset Nat :=
  match s.holds (i, .addr (Fin.last ndirect)) with
  | some a => {a, s.sb.bblock a}
  | none => ∅

/-- Up to here `n` blocks were logged besides those of the indirect block. -/
def LoggedIn (s : FsState) (i n : Nat) (before after : List Nat) : Prop :=
  ∃ blocks : Finset Nat, blocks.card ≤ n ∧
    after.toFinset ⊆ before.toFinset ∪ indirectBlocks s i ∪ blocks

/-- The code failed when `n` blocks were logged and those of the indirect block. -/
def FailedIn (s : FsState) (i n : Nat) (before after : List Nat) : Prop :=
  ∃ indirect blocks : Finset Nat, indirectBlocks s i ⊆ indirect ∧ indirect.card ≤ 2 ∧
    blocks.card ≤ n ∧ after.toFinset ⊆ before.toFinset ∪ indirect ∪ blocks

section Counting

variable {s t u : FsState} {i b n m off left fuel : Nat} {spot : Spot}
  {before middle after : List Nat} {src : Nat → UInt8}

theorem card_indirectBlocks (s : FsState) (i : Nat) : (indirectBlocks s i).card ≤ 2 := by
  unfold indirectBlocks
  split
  · exact Finset.card_le_two
  · exact Nat.zero_le _

theorem indirectBlocks_mono (mapped : Mapped s t i) :
    indirectBlocks s i ⊆ indirectBlocks t i := by
  unfold indirectBlocks
  cases here : s.holds (i, .addr (Fin.last ndirect)) with
  | none => exact Finset.empty_subset _
  | some a => rw [mapped.keeps _ _ here, mapped.sb]

theorem LoggedIn.refl (s : FsState) (i n : Nat) (before : List Nat) :
    LoggedIn s i n before before :=
  ⟨∅, Nat.zero_le _, by
    rw [Finset.union_empty]
    exact Finset.subset_union_left⟩

theorem LoggedIn.mono (logged : LoggedIn s i n before after) (more : n ≤ m) :
    LoggedIn s i m before after := by
  obtain ⟨blocks, few, within⟩ := logged
  exact ⟨blocks, few.trans more, within⟩

theorem LoggedIn.trans (first : LoggedIn s i n before middle) (mapped : Mapped s t i)
    (second : LoggedIn t i m middle after) : LoggedIn t i (n + m) before after := by
  obtain ⟨blocks, few, within⟩ := first
  obtain ⟨others, fewOthers, withinOthers⟩ := second
  refine ⟨blocks ∪ others, (Finset.card_union_le ..).trans (Nat.add_le_add few fewOthers), ?_⟩
  have grows := indirectBlocks_mono mapped
  intro block isHere
  have cases := withinOthers isHere
  simp only [Finset.mem_union] at cases ⊢
  rcases cases with (earlier | indirect) | other
  · have cases := within earlier
    simp only [Finset.mem_union] at cases
    rcases cases with (start | indirect) | mine
    · exact .inl (.inl start)
    · exact .inl (.inr (grows indirect))
    · exact .inr (.inl mine)
  · exact .inl (.inr indirect)
  · exact .inr (.inr other)

theorem FailedIn.of_logged (mapped : Mapped s t i) (first : LoggedIn t i n before middle)
    (second : FailedIn t i m middle after) : FailedIn s i (n + m) before after := by
  obtain ⟨blocks, few, within⟩ := first
  obtain ⟨indirect, others, grows, two, fewOthers, withinOthers⟩ := second
  refine ⟨indirect, blocks ∪ others, (indirectBlocks_mono mapped).trans grows, two,
    (Finset.card_union_le ..).trans (Nat.add_le_add few fewOthers), fun block isHere => ?_⟩
  have cases := withinOthers isHere
  simp only [Finset.mem_union] at cases ⊢
  rcases cases with (earlier | isIndirect) | other
  · have cases := within earlier
    simp only [Finset.mem_union] at cases
    rcases cases with (start | isIndirect) | mine
    · exact .inl (.inl start)
    · exact .inl (.inr (grows isIndirect))
    · exact .inr (.inl mine)
  · exact .inl (.inr isIndirect)
  · exact .inr (.inr other)

theorem FailedIn.refl (s : FsState) (i n : Nat) (before : List Nat) :
    FailedIn s i n before before := by
  refine ⟨indirectBlocks s i, ∅, Finset.Subset.refl _, card_indirectBlocks s i,
    Nat.zero_le _, ?_⟩
  rw [Finset.union_empty]
  exact Finset.subset_union_left

theorem FailedIn.mono (failed : FailedIn s i n before after) (more : n ≤ m) :
    FailedIn s i m before after := by
  obtain ⟨indirect, blocks, grows, two, few, within⟩ := failed
  exact ⟨indirect, blocks, grows, two, few.trans more, within⟩

/-- `balloc` logs the bitmap block and the new block. -/
theorem balloc_log : wp (fun failure => failure.2 = before) balloc
    (fun b last => last.2 = before ++ [s.sb.bblock b, b]) (s, before) := by
  unfold balloc
  simp only [wp_bind, wp_lift, wp_get]
  cases (List.range s.sb.size).find? fun b => !s.bit b with
  | none =>
      simp only [wp_lift, wp_throw]
  | some b =>
      simp only [wp_bind, wp_lift, wp_set, wp_note, bzero, Blocks.bzero, wp_modify, wp_pure]
      rw [List.append_assoc]
      rfl

theorem bmapAddr_log {k : Fin (ndirect + 1)} :
    wp (fun failure => failure.2 = before) (bmapAddr i k)
      (fun b last => last.2 = before ∨ last.2 = before ++ [s.sb.bblock b, b]) (s, before) := by
  unfold bmapAddr
  simp only [wp_bind, wp_lift, wp_get]
  split
  · simp only [wp_bind]
    refine wp_mono balloc_log fun b last logged => ?_
    obtain ⟨t, events⟩ := last
    simp only [wp_lift, wp_modify, wp_pure]
    exact .inr logged
  · exact .inl rfl

theorem bmapIndirect_log {a j : Nat} :
    wp (fun failure => failure.2 = before) (bmapIndirect a j)
      (fun b last => last.2 = before ∨ last.2 = before ++ [s.sb.bblock b, b, a])
      (s, before) := by
  unfold bmapIndirect
  simp only [wp_bind, wp_lift, wp_get]
  split
  · simp only [wp_bind]
    refine wp_mono balloc_log fun b last logged => ?_
    obtain ⟨t, events⟩ := last
    simp only [wp_lift, wp_modify, wp_note, wp_pure]
    dsimp only at logged
    rw [logged, List.append_assoc]
    exact .inr rfl
  · exact .inl rfl

theorem toFinset_append_pair {indirect : Finset Nat} {x y : Nat} :
    (before ++ [x, y]).toFinset ⊆ before.toFinset ∪ indirect ∪ {y, x} := by
  intro block isHere
  simp only [List.mem_toFinset, List.mem_append, List.mem_cons, List.not_mem_nil,
    or_false, Finset.mem_union, Finset.mem_insert, Finset.mem_singleton] at isHere ⊢
  rcases isHere with early | bitmap | new
  · exact .inl (.inl early)
  · exact .inr (.inr bitmap)
  · exact .inr (.inl new)

/-- The direct part of `bmap`. -/
theorem bmapAddr_blocks {k : Fin (ndirect + 1)} (ok : Ok s) (valid : s.valid i = true) :
    wp (fun failure => failure.2 = before) (bmapAddr i k)
      (fun b last => Ok last.1 ∧ Mapped s last.1 i ∧ last.1.holds (i, .addr k) = some b ∧
        (last.2 = before ∨ last.2 = before ++ [last.1.sb.bblock b, b])) (s, before) := by
  refine wp_mono (wp_and bmapAddr_log
    (wp_of_erases (erases_bmapAddr i k) (bmapAddr_spec ok valid) before)) ?_
  rintro b ⟨t, events⟩ ⟨logged, okT, mapped, stored⟩
  refine ⟨okT, mapped, stored, ?_⟩
  rw [mapped.sb]
  exact logged

/-- The indirect part of `bmap`. -/
theorem bmapIndirect_blocks {a : Nat} {j : Fin nindirect} (ok : Ok s)
    (indirect : s.holds (i, .addr (Fin.last ndirect)) = some a)
    (logged : middle.toFinset ⊆ before.toFinset ∪ indirectBlocks s i) :
    wp (fun failure => failure.2 = middle) (bmapIndirect a j.val)
      (fun b last => (Ok last.1 ∧ Mapped s last.1 i ∧
        last.1.holds (i, .indirect j) = some b) ∧
        last.2.toFinset ⊆
          before.toFinset ∪ indirectBlocks last.1 i ∪ {b, last.1.sb.bblock b})
      (s, middle) := by
  refine wp_mono (wp_and bmapIndirect_log
    (wp_of_erases (erases_bmapIndirect a j.val) (bmapIndirect_spec ok indirect) middle)) ?_
  rintro b ⟨t, events⟩ ⟨also, okT, mapped, stored⟩
  dsimp only at also mapped okT stored ⊢
  refine ⟨⟨okT, mapped, stored⟩, ?_⟩
  have grows := indirectBlocks_mono mapped
  have hereA : a ∈ indirectBlocks t i := by
    refine grows ?_
    rw [indirectBlocks, indirect]
    exact Finset.mem_insert_self _ _
  have early : middle.toFinset ⊆ before.toFinset ∪ indirectBlocks t i :=
    logged.trans (Finset.union_subset_union_right grows)
  rw [mapped.sb]
  rcases also with rfl | rfl
  · exact early.trans Finset.subset_union_left
  · intro block isHere
    simp only [List.mem_toFinset, List.mem_append, List.mem_cons, List.not_mem_nil,
      or_false] at isHere
    rcases isHere with old | bitmap | new | isIndirect
    · exact Finset.mem_union_left _ (early (List.mem_toFinset.mpr old))
    · rw [bitmap]
      exact Finset.mem_union_right _
        (Finset.mem_insert_of_mem (Finset.mem_singleton_self _))
    · rw [new]
      exact Finset.mem_union_right _ (Finset.mem_insert_self _ _)
    · rw [isIndirect]
      exact Finset.mem_union_left _ (Finset.mem_union_right _ hereA)

/-- What `bmap` logs: the blocks of the indirect block, and those of the block that it
returns. -/
theorem bmap_log {bn : Nat} (ok : Ok s) (valid : s.valid i = true) :
    wp (fun failure => FailedIn s i 0 before failure.2) (bmap i bn)
      (fun b last => (Ok last.1 ∧ Mapped s last.1 i ∧
        ∃ spot, spotOf bn = some spot ∧ last.1.holds (i, spot) = some b) ∧
        last.2.toFinset ⊆
          before.toFinset ∪ indirectBlocks last.1 i ∪ {b, last.1.sb.bblock b})
      (s, before) := by
  have same (failure : FsPanic × List Nat) (stopped : failure.2 = before) :
      FailedIn s i 0 before failure.2 := by
    rw [stopped]
    exact FailedIn.refl s i 0 before
  unfold bmap
  split
  · rename_i direct
    refine wp_allow (wp_mono (bmapAddr_blocks ok valid) ?_) same
    rintro b ⟨t, events⟩ ⟨okT, mapped, stored, logged⟩
    refine ⟨⟨okT, mapped, _, spotOf_direct direct, stored⟩, ?_⟩
    dsimp only at logged ⊢
    rcases logged with rfl | rfl
    · exact Finset.subset_union_left.trans Finset.subset_union_left
    · exact toFinset_append_pair
  · rename_i indirect
    split
    · rename_i inside
      rw [wp_bind]
      refine wp_mono (wp_allow (bmapAddr_blocks ok valid) same) ?_
      rintro a ⟨t, events⟩ ⟨okT, mapped, stored, logged⟩
      dsimp only at okT mapped stored logged
      have blocks : indirectBlocks t i = {a, t.sb.bblock a} := by
        rw [indirectBlocks, stored]
      have first : events.toFinset ⊆ before.toFinset ∪ indirectBlocks t i := by
        rw [blocks]
        rcases logged with rfl | rfl
        · exact Finset.subset_union_left
        · exact by simpa only [Finset.union_empty] using
            (toFinset_append_pair : (before ++ [t.sb.bblock a, a]).toFinset ⊆
              before.toFinset ∪ ∅ ∪ {a, t.sb.bblock a})
      refine wp_allow (wp_mono (bmapIndirect_blocks (j := ⟨_, inside⟩) okT stored first) ?_) ?_
      · rintro b ⟨u, last⟩ ⟨⟨okU, second, found⟩, all⟩
        exact ⟨⟨okU, mapped.trans second, _, spotOf_indirect indirect inside, found⟩, all⟩
      · intro failure stopped
        refine ⟨indirectBlocks t i, ∅, indirectBlocks_mono mapped, card_indirectBlocks t i,
          Nat.zero_le _, ?_⟩
        rw [stopped, Finset.union_empty]
        exact first
    · simp only [wp_lift, wp_throw]
      exact FailedIn.refl s i 0 before

theorem bmapAddr_of_stored {k : Fin (ndirect + 1)} (valid : s.valid i = true)
    (stored : s.holds (i, .addr k) = some b) :
    bmapAddr i k (s, before) = .ok (b, (s, before)) := by
  obtain ⟨-, value, nonzero⟩ := holds_eq_some.mp stored
  rw [view_of_valid valid, entry] at value
  have present : (s.inode i).addrs k ≠ 0 := by
    rw [← toNat_ne_zero, value]
    exact nonzero
  unfold bmapAddr
  rw [bind_of_ok (lift_get_apply s before), if_neg present, value]
  rfl

theorem bmapIndirect_of_stored {a : Nat} {j : Fin nindirect}
    (indirect : s.holds (i, .addr (Fin.last ndirect)) = some a)
    (stored : s.holds (i, .indirect j) = some b) :
    bmapIndirect a j.val (s, before) = .ok (b, (s, before)) := by
  have present := indirect_present stored
  obtain ⟨-, value, nonzero⟩ := holds_eq_some.mp stored
  obtain ⟨-, block, -⟩ := holds_eq_some.mp indirect
  rw [entry] at block
  rw [entry, if_neg present, block] at value
  unfold bmapIndirect
  rw [bind_of_ok (lift_get_apply s before), value, if_neg nonzero]
  rfl

/-- `bmap` logs nothing where there is a block. -/
theorem bmap_of_stored {bn : Nat} (valid : s.valid i = true)
    (index : spotOf bn = some spot) (stored : s.holds (i, spot) = some b) :
    bmap i bn (s, before) = .ok (b, (s, before)) := by
  unfold spotOf at index
  unfold bmap
  split at index
  · rename_i direct
    cases index
    rw [dif_pos direct]
    exact bmapAddr_of_stored valid stored
  · rename_i indirect
    split at index
    · rename_i inside
      cases index
      rw [dif_neg indirect, if_pos inside]
      have block := holds_indirect (holds_eq_some.mp stored).1 (indirect_present stored)
      rw [bind_of_ok (bmapAddr_of_stored valid block)]
      have found := @bmapIndirect_of_stored s i b before _ _ block stored
      exact found
    · cases index

/-- The `memmove` into a block of the file. -/
theorem setBlock_logged (contents : Block) (ok : Ok s)
    (stored : s.holds (i, spot) = some b) (file : spot ≠ .addr (Fin.last ndirect)) :
    Ok (s.setBlock b contents) ∧ Mapped s (s.setBlock b contents) i := by
  obtain ⟨okay, same, holds⟩ := setBlock_file contents ok stored file
  exact ⟨okay, Mapped.of_same same holds⟩

/-- The loop of `writei` logs at most two blocks for each block of the file. -/
theorem writeBytes_log (ok : Ok s) (valid : s.valid i = true)
    (small : left = 0 ∨ off % bsize + left ≤ bsize * n) :
    wp (fun failure => FailedIn s i (2 * n) before failure.2) (writeBytes i fuel src off left)
      (fun _ last => Mapped s last.1 i ∧ LoggedIn last.1 i (2 * n) before last.2)
      (s, before) := by
  induction fuel generalizing s src off left n before with
  | zero => exact ⟨Mapped.refl s i, LoggedIn.refl ..⟩
  | succ fuel ih =>
      unfold writeBytes
      by_cases done : left = 0
      · rw [if_pos done]
        exact ⟨Mapped.refl s i, LoggedIn.refl ..⟩
      · rw [if_neg done]
        have fits := small.resolve_left done
        have inBlock : off % bsize < bsize := Nat.mod_lt off (by decide)
        obtain ⟨k, rfl⟩ : ∃ k, n = k + 1 :=
          Nat.exists_eq_succ_of_ne_zero fun none => by
            rw [none] at fits
            omega
        simp only [wp_bind]
        refine wp_mono (wp_allow (bmap_log ok valid) fun _ failed => failed.mono (Nat.zero_le _))
          ?_
        rintro b ⟨t, events⟩ ⟨⟨okT, mapped, spot, index, stored⟩, logged⟩
        dsimp only at okT mapped stored logged
        simp only [wp_lift, wp_modify, wp_note]
        generalize chunk : min left (bsize - off % bsize) = m
        generalize copyInto _ _ _ _ = contents
        obtain ⟨okU, second⟩ := setBlock_logged contents okT stored
          (spotOf_ne_last index)
        have both := mapped.trans second
        have first : LoggedIn (t.setBlock b contents) i 2 before (events ++ [b]) := by
          refine ⟨{b, t.sb.bblock b}, Finset.card_le_two, ?_⟩
          have all := logged.trans (Finset.union_subset_union_left
            (Finset.union_subset_union_right (indirectBlocks_mono second)))
          intro block isHere
          simp only [List.mem_toFinset, List.mem_append, List.mem_singleton] at isHere
          rcases isHere with early | rfl
          · exact all (List.mem_toFinset.mpr early)
          · exact Finset.mem_union_right _ (Finset.mem_insert_self _ _)
        have rest : left - m = 0 ∨ (off + m) % bsize + (left - m) ≤ bsize * k := by
          simp only [bsize] at *
          omega
        have count : 2 * (k + 1) = 2 + 2 * k := by omega
        rw [count]
        refine wp_allow (wp_mono (ih okU (both.valid ▸ valid) rest) ?_) ?_
        · rintro last ⟨v, events'⟩ ⟨third, more⟩
          exact ⟨both.trans third, first.trans third more⟩
        · intro failure failed
          exact FailedIn.of_logged both first failed

/-- A piece of a write: four blocks of the file, three of them new, with their bitmap
blocks. -/
theorem writeBytes_piece_log (ok : Ok s) (valid : s.valid i = true)
    (covered : s.Covered i off) (small : left ≤ maxWrite) :
    wp (fun failure => FailedIn s i 7 before failure.2) (writeBytes i fuel src off left)
      (fun _ last => Mapped s last.1 i ∧ LoggedIn last.1 i 7 before last.2) (s, before) := by
  have size : maxWrite = 3 * bsize := rfl
  by_cases aligned : off % bsize = 0
  · refine wp_allow (wp_mono (writeBytes_log (n := 3) ok valid (.inr (by omega))) ?_) ?_
    · rintro last ⟨t, events⟩ ⟨mapped, logged⟩
      exact ⟨mapped, logged.mono (by decide)⟩
    · exact fun _ failed => failed.mono (by decide)
  · cases fuel with
    | zero => exact ⟨Mapped.refl s i, LoggedIn.refl ..⟩
    | succ fuel =>
        unfold writeBytes
        by_cases done : left = 0
        · rw [if_pos done]
          exact ⟨Mapped.refl s i, LoggedIn.refl ..⟩
        · rw [if_neg done]
          -- the part of the block in front of the offset belongs to the file
          have start : off / bsize * bsize < off := by
            simp only [bsize] at *
            omega
          obtain ⟨spot, b, index, stored⟩ := covered (off / bsize) start
          simp only [wp_bind]
          rw [wp, bmap_of_stored valid index stored]
          simp only [wp_lift, wp_modify, wp_note]
          generalize chunk : min left (bsize - off % bsize) = m
          generalize copyInto _ _ _ _ = contents
          obtain ⟨okU, mapped⟩ := setBlock_logged contents ok stored
            (spotOf_ne_last index)
          have first : LoggedIn (s.setBlock b contents) i 1 before (before ++ [b]) := by
            refine ⟨{b}, (Finset.card_singleton b).le, fun block isHere => ?_⟩
            simp only [List.mem_toFinset, List.mem_append, List.mem_singleton] at isHere
            rcases isHere with early | rfl
            · exact Finset.mem_union_left _
                (Finset.mem_union_left _ (List.mem_toFinset.mpr early))
            · exact Finset.mem_union_right _ (Finset.mem_singleton_self _)
          have rest : left - m = 0 ∨ (off + m) % bsize + (left - m) ≤ bsize * 3 := by
            simp only [maxWrite, maxopblocks, bsize] at *
            omega
          refine wp_allow (wp_mono (writeBytes_log okU (mapped.valid ▸ valid) rest) ?_) ?_
          · rintro last ⟨t, events⟩ ⟨second, more⟩
            exact ⟨mapped.trans second, first.trans second more⟩
          · intro failure failed
            exact FailedIn.of_logged mapped first failed

theorem LoggedIn.card (logged : LoggedIn s i n [] after) : after.toFinset.card ≤ 2 + n := by
  obtain ⟨blocks, few, within⟩ := logged
  refine (Finset.card_le_card within).trans ((Finset.card_union_le ..).trans ?_)
  rw [List.toFinset_nil, Finset.empty_union]
  exact Nat.add_le_add (card_indirectBlocks s i) few

theorem FailedIn.card (failed : FailedIn s i n [] after) : after.toFinset.card ≤ 2 + n := by
  obtain ⟨indirect, blocks, _, two, few, within⟩ := failed
  refine (Finset.card_le_card within).trans ((Finset.card_union_le ..).trans ?_)
  rw [List.toFinset_nil, Finset.empty_union]
  exact Nat.add_le_add two few

/-- `writei` of a piece logs at most `MAXOPBLOCKS` blocks. -/
theorem writei_log (devsw : UInt16 → UInt32 → Int) (settled : Settled s)
    (valid : s.valid i = true) {off n : UInt32} (small : n.toNat ≤ maxWrite) :
    wp (fun failure => failure.2.toFinset.card ≤ maxopblocks) (writei devsw i src off n)
      (fun _ last => last.2.toFinset.card ≤ maxopblocks) (s, []) := by
  have none : ([] : List Nat).toFinset.card ≤ maxopblocks := by decide
  unfold writei
  simp only [wp_bind, wp_lift, wp_get]
  split
  · exact none
  · split
    · exact none
    · rename_i inside
      split
      · exact none
      · have within : off.toNat ≤ (s.inode i).size.toNat := by
          rw [not_or, UInt32.lt_iff_toNat_lt] at inside
          exact Nat.le_of_not_lt inside.1
        simp only [wp_bind]
        refine wp_mono (wp_allow (writeBytes_piece_log settled.ok valid
          (Covered.mono (settled.covered valid) within) small)
          fun _ failed => failed.card.trans (by decide)) ?_
        rintro last ⟨t, events⟩ ⟨mapped, logged⟩
        have nine := logged.card
        split
        · simp only [wp_bind, wp_lift, wp_modify, iupdate, wp_get, Blocks.iupdate, wp_note,
            wp_pure, List.toFinset_append]
          refine (Finset.card_union_le ..).trans ?_
          exact Nat.add_le_add nine (List.toFinset_card_le _)
        · exact nine.trans (by decide)

end Counting

/-- `ilock` leaves a valid inode. -/
theorem ilock_valid {s : FsState} {i : Nat} :
    wp (fun _ => True) (ilock i) (fun _ t => t.valid i = true) s := by
  unfold ilock
  simp only [wp_bind, wp_get]
  split
  · trivial
  · split
    · simp only [wp_bind, wp_set]
      split
      · trivial
      · exact Function.update_self ..
    · rename_i valid
      simpa using valid

/-- A piece of a write logs at most `MAXOPBLOCKS` blocks, wherever the bits of its new
blocks lie, and also if it panics. -/
theorem writePiece_log_le (devsw : UInt16 → UInt32 → Int) {s : FsState} (settled : Settled s)
    (f : File) (addr : Nat → UInt8) {n1 : UInt32} (small : n1.toNat ≤ maxWrite) :
    (events (writePiece devsw f addr n1 (s, []))).toFinset.card ≤ maxopblocks := by
  refine events_of_wp (fun after => after.toFinset.card ≤ maxopblocks) ?_
  have none : ([] : List Nat).toFinset.card ≤ maxopblocks := by decide
  unfold writePiece
  simp only [wp_bind, wp_lift]
  by_cases referenced : 0 < s.ref f.ip
  · refine wp_mono (wp_allow (wp_and (ilock_spec settled referenced) ilock_valid)
      fun _ _ => none) fun _ t locked => ?_
    obtain ⟨settledT, valid⟩ := locked
    refine wp_mono (writei_log devsw settledT valid small) ?_
    rintro r ⟨u, events⟩ few
    exact few
  · have stops : ilock f.ip s = .error .ilock := by
      unfold ilock
      rw [bind_of_ok (get_apply s), if_pos (by omega)]
      rfl
    rw [wp, stops]
    exact none

/-- The largest piece at the start of an empty file. -/
theorem largestPiece_log_le :
    ∃ s, LabelledRuns.run (Blocks.step fun _ _ => -1) emptyFs [.ialloc tFile, .ilock 1] = some s ∧
      (events (writePiece (fun _ _ => -1) ⟨true, 1, 0⟩ (fun _ => 7) 1536
        (s, []))).toFinset.card ≤ maxopblocks := by
  have made : (LabelledRuns.run (Blocks.step fun _ _ => -1) emptyFs
      [.ialloc tFile, .ilock 1]).isSome = true := by
    decide +kernel
  obtain ⟨s, ran⟩ := Option.isSome_iff_exists.mp made
  have settled : Settled s :=
    LabelledRuns.invariant_of_run settled_of_step (settled_of_start start_emptyFs) ran
  exact ⟨s, ran, writePiece_log_le _ settled _ _ (by decide)⟩

end Logged

end Xv6.Blocks
