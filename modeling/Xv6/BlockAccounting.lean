import Xv6.BlockOwners
import Xv6.InodeBlocks

/-!
# Block accounting

In every sequence of reads, writes, allocations and frees of inodes, the blocks
marked in the bitmap are those that the inodes store, each at one place, and no
file has a hole.  In the middle of an operation an in-memory inode may be ahead
of its copy on the disk, so the invariant is about the in-memory inodes where
these are valid.
-/

namespace Xv6.Blocks

open ByteFields BlockOwners LabelledRuns StateTriples

section Dinodes

variable {block : Block} {offset : Nat} {addrs : Fin (ndirect + 1) → UInt32}

theorem getByte_storeAddrs {ks : List (Fin (ndirect + 1))} {k : Nat}
    (room : offset + 52 ≤ bsize) (outside : k < offset ∨ offset + 52 ≤ k) :
    getByte (storeAddrs block offset addrs ks) k = getByte block k := by
  induction ks generalizing block with
  | nil => rfl
  | cons first ks ih =>
      have bound : first.val < 13 := first.isLt
      refine ih.trans ?_
      exact getByte_setWord_of_outside _ _ (by omega) (by omega)

local instance index_lawfulBEq : LawfulBEq (Fin (ndirect + 1)) := inferInstance

theorem getWord_storeAddrs (room : offset + 52 ≤ bsize)
    (ks : List (Fin (ndirect + 1))) (k : Fin (ndirect + 1)) :
    getWord (storeAddrs block offset addrs ks) (offset + 4 * k.val) =
      if k ∈ ks then (addrs k).toNat else getWord block (offset + 4 * k.val) := by
  induction ks generalizing block with
  | nil => rfl
  | cons first ks ih =>
      have bound : first.val < 13 := first.isLt
      have bound' : k.val < 13 := k.isLt
      have small := (addrs k).toNat_lt
      refine ih.trans ?_
      by_cases later : k ∈ ks
      · simp [later]
      · rw [if_neg later]
        by_cases same : k = first
        · subst same
          rw [getWord_setWord _ _ (by omega), if_pos (List.mem_cons_self ..),
            Nat.mod_eq_of_lt small]
        · have apart : k.val ≠ first.val := fun equal => same (Fin.ext equal)
          rw [getWord_setWord_of_disjoint _ _ (by omega) (by omega), if_neg]
          exact List.not_mem_cons_of_ne_of_not_mem same later

theorem getByte_setDinode {slot k : Nat} {d : Dinode} (inside : slot < ipb)
    (outside : k < 64 * slot ∨ 64 * slot + 64 ≤ k) :
    getByte (setDinode block slot d) k = getByte block k := by
  have room : 64 * slot + 64 ≤ bsize := by
    have : slot < 8 := inside
    have : bsize = 512 := rfl
    omega
  unfold setDinode
  dsimp only
  rw [getByte_storeAddrs (by omega) (by omega),
    getByte_setWord_of_outside _ _ (by omega) (by omega),
    getByte_setHalf_of_outside _ _ (by omega) (by omega),
    getByte_setHalf_of_outside _ _ (by omega) (by omega),
    getByte_setHalf_of_outside _ _ (by omega) (by omega),
    getByte_setHalf_of_outside _ _ (by omega) (by omega)]

theorem getHalf_storeAddrs {ks : List (Fin (ndirect + 1))} {k : Nat}
    (room : offset + 52 ≤ bsize) (before : k + 2 ≤ offset) :
    getHalf (storeAddrs block offset addrs ks) k = getHalf block k := by
  unfold getHalf
  rw [getByte_storeAddrs room (by omega), getByte_storeAddrs room (by omega)]

theorem getWord_storeAddrs_of_before {ks : List (Fin (ndirect + 1))} {k : Nat}
    (room : offset + 52 ≤ bsize) (before : k + 4 ≤ offset) :
    getWord (storeAddrs block offset addrs ks) k = getWord block k := by
  unfold getWord
  rw [getHalf_storeAddrs room (by omega), getHalf_storeAddrs room (by omega)]

/-- What `iupdate` stores is what `ilock` reads. -/
theorem getDinode_setDinode {slot : Nat} (d : Dinode) (inside : slot < ipb) :
    getDinode (setDinode block slot d) slot = d := by
  have room : 64 * slot + 64 ≤ bsize := by
    have : slot < 8 := inside
    have : bsize = 512 := rfl
    omega
  have half (value : UInt16) : value.toNat % 65536 = value.toNat :=
    Nat.mod_eq_of_lt value.toNat_lt
  have word (value : UInt32) : value.toNat % 4294967296 = value.toNat :=
    Nat.mod_eq_of_lt value.toNat_lt
  obtain ⟨type, major, minor, nlink, size, addrs⟩ := d
  simp only [getDinode, setDinode, Dinode.mk.injEq]
  refine ⟨?_, ?_, ?_, ?_, ?_, funext fun k => ?_⟩
  · rw [getHalf_storeAddrs (by omega) (by omega),
      getHalf_setWord_of_disjoint _ _ (by omega) (by omega),
      getHalf_setHalf_of_disjoint _ _ (by omega) (by omega),
      getHalf_setHalf_of_disjoint _ _ (by omega) (by omega),
      getHalf_setHalf_of_disjoint _ _ (by omega) (by omega),
      getHalf_setHalf _ _ (by omega), half, UInt16.ofNat_toNat]
  · rw [getHalf_storeAddrs (by omega) (by omega),
      getHalf_setWord_of_disjoint _ _ (by omega) (by omega),
      getHalf_setHalf_of_disjoint _ _ (by omega) (by omega),
      getHalf_setHalf_of_disjoint _ _ (by omega) (by omega),
      getHalf_setHalf _ _ (by omega), half, UInt16.ofNat_toNat]
  · rw [getHalf_storeAddrs (by omega) (by omega),
      getHalf_setWord_of_disjoint _ _ (by omega) (by omega),
      getHalf_setHalf_of_disjoint _ _ (by omega) (by omega),
      getHalf_setHalf _ _ (by omega), half, UInt16.ofNat_toNat]
  · rw [getHalf_storeAddrs (by omega) (by omega),
      getHalf_setWord_of_disjoint _ _ (by omega) (by omega),
      getHalf_setHalf _ _ (by omega), half, UInt16.ofNat_toNat]
  · rw [getWord_storeAddrs_of_before (by omega) (by omega),
      getWord_setWord _ _ (by omega), word, UInt32.ofNat_toNat]
  · rw [getWord_storeAddrs (by omega), if_pos (List.mem_finRange k),
      UInt32.ofNat_toNat]

/-- The other dinodes of the block do not change. -/
theorem getDinode_setDinode_of_ne {slot other : Nat} (d : Dinode)
    (inside : slot < ipb) (apart : other ≠ slot) :
    getDinode (setDinode block slot d) other = getDinode block other := by
  have byte {k : Nat} (low : 64 * other ≤ k) (high : k < 64 * other + 64) :
      getByte (setDinode block slot d) k = getByte block k :=
    getByte_setDinode inside (by omega)
  have half {k : Nat} (low : 64 * other ≤ k) (high : k + 2 ≤ 64 * other + 64) :
      getHalf (setDinode block slot d) k = getHalf block k := by
    unfold getHalf
    rw [byte low (by omega), byte (by omega) (by omega)]
  have word {k : Nat} (low : 64 * other ≤ k) (high : k + 4 ≤ 64 * other + 64) :
      getWord (setDinode block slot d) k = getWord block k := by
    unfold getWord
    rw [half low (by omega), half (by omega) (by omega)]
  simp only [getDinode, Dinode.mk.injEq]
  refine ⟨?_, ?_, ?_, ?_, ?_, funext fun k => ?_⟩
  · rw [half (by omega) (by omega)]
  · rw [half (by omega) (by omega)]
  · rw [half (by omega) (by omega)]
  · rw [half (by omega) (by omega)]
  · rw [word (by omega) (by omega)]
  · have bound : k.val < 13 := k.isLt
    rw [word (by omega) (by omega)]

end Dinodes

namespace Superblock.Layout

variable {sb : Superblock}

theorem iblock_lt (layout : sb.Layout) {i : Nat} (inside : i < sb.ninodes) :
    1 < sb.iblock i ∧ sb.iblock i < sb.bmapstart := by
  have boot := layout.boot
  have room := layout.inodes
  have slot : i / ipb ≤ sb.ninodes / ipb := Nat.div_le_div_right inside.le
  unfold iblock
  generalize i / ipb = used at *
  generalize sb.ninodes / ipb = blocks at *
  omega

theorem bblock_lt (layout : sb.Layout) {b : Nat} (inside : b < sb.size) :
    sb.bmapstart ≤ sb.bblock b ∧ sb.bblock b < sb.nmeta := by
  have room := layout.bitmap
  have slot : b / bpb ≤ sb.size / bpb := Nat.div_le_div_right inside.le
  unfold bblock
  generalize b / bpb = used at *
  generalize sb.size / bpb = blocks at *
  omega

theorem one_lt_bmapstart (layout : sb.Layout) : 1 < sb.bmapstart := by
  have boot := layout.boot
  have room := layout.inodes
  generalize sb.ninodes / ipb = blocks at *
  omega

theorem bmapstart_lt (layout : sb.Layout) : sb.bmapstart < sb.nmeta := by
  have room := layout.bitmap
  generalize sb.size / bpb = blocks at *
  omega

theorem nmeta_le (sb : Superblock) : sb.nmeta ≤ sb.size :=
  Nat.sub_le ..

/-- The number of a data block is not zero and fits a `uint`. -/
theorem isData_bounds (layout : sb.Layout) {b : Nat} (data : sb.IsData b) :
    b ≠ 0 ∧ b < 4294967296 := by
  have first := layout.bmapstart_lt
  have last := layout.bounded
  obtain ⟨low, high⟩ := data
  omega

end Superblock.Layout

section Frames

variable {s t u : FsState} {blk b c i : Nat} {block : Block}

theorem dinode_setBlock (apart : s.sb.iblock i ≠ blk) :
    (s.setBlock blk block).dinode i = s.dinode i := by
  simp only [FsState.dinode, FsState.setBlock, Function.update_of_ne apart]

theorem bit_setBlock (apart : s.sb.bblock c ≠ blk) :
    (s.setBlock blk block).bit c = s.bit c := by
  simp only [FsState.bit, FsState.setBlock, Function.update_of_ne apart]

theorem readsb_congr {disk disk' : Disk} (same : disk' 1 = disk 1) :
    readsb disk' = readsb disk := by
  simp only [readsb, same]

theorem eq_of_bblock_eq {sb : Superblock} (block : sb.bblock c = sb.bblock b)
    (position : c % bpb = b % bpb) : c = b := by
  have quotient : c / bpb = b / bpb := by
    unfold Superblock.bblock at block
    omega
  rw [← Nat.div_add_mod c bpb, ← Nat.div_add_mod b bpb, quotient, position]

theorem byte_lt (b : Nat) : b % bpb / 8 < bsize := by
  have : b % bpb < 512 * 8 := Nat.mod_lt b (by decide)
  have : bsize = 512 := rfl
  omega

theorem bit_mark : (s.mark b).bit c = (decide (c = b) || s.bit c) := by
  by_cases block : s.sb.bblock c = s.sb.bblock b
  · have here : (s.mark b).disk (s.sb.bblock c) =
        markBit (s.disk (s.sb.bblock b)) (b % bpb) := by
      rw [block]
      exact Function.update_self ..
    have same : decide (c % bpb = b % bpb) = decide (c = b) :=
      decide_eq_decide.mpr ⟨eq_of_bblock_eq block, fun equal => by rw [equal]⟩
    change getBit ((s.mark b).disk (s.sb.bblock c)) (c % bpb) = _
    rw [here, getBit_markBit _ (byte_lt b), same, FsState.bit, block]
  · have other : c ≠ b := fun same => block (by rw [same])
    rw [FsState.mark, bit_setBlock block]
    simp [other]

theorem bit_clear : (s.clear b).bit c = (!decide (c = b) && s.bit c) := by
  by_cases block : s.sb.bblock c = s.sb.bblock b
  · have here : (s.clear b).disk (s.sb.bblock c) =
        clearBit (s.disk (s.sb.bblock b)) (b % bpb) := by
      rw [block]
      exact Function.update_self ..
    have same : decide (c % bpb = b % bpb) = decide (c = b) :=
      decide_eq_decide.mpr ⟨eq_of_bblock_eq block, fun equal => by rw [equal]⟩
    change getBit ((s.clear b).disk (s.sb.bblock c)) (c % bpb) = _
    rw [here, getBit_clearBit _ (byte_lt b), same, FsState.bit, block]
  · have other : c ≠ b := fun same => block (by rw [same])
    rw [FsState.clear, bit_setBlock block]
    simp [other]

/-- Nothing changes but blocks behind the inode blocks. -/
structure SameInodes (s t : FsState) : Prop where
  sb : t.sb = s.sb
  ref : t.ref = s.ref
  valid : t.valid = s.valid
  inode : t.inode = s.inode
  super : readsb t.disk = readsb s.disk
  dinode : ∀ i, i < s.sb.ninodes → t.dinode i = s.dinode i

theorem SameInodes.refl (s : FsState) : SameInodes s s :=
  ⟨rfl, rfl, rfl, rfl, rfl, fun _ _ => rfl⟩

theorem SameInodes.trans (first : SameInodes s t) (second : SameInodes t u) :
    SameInodes s u where
  sb := second.sb.trans first.sb
  ref := second.ref.trans first.ref
  valid := second.valid.trans first.valid
  inode := second.inode.trans first.inode
  super := second.super.trans first.super
  dinode i inside :=
    (second.dinode i (first.sb ▸ inside)).trans (first.dinode i inside)

theorem sameInodes_setBlock (layout : s.sb.Layout)
    (behind : s.sb.bmapstart ≤ blk) : SameInodes s (s.setBlock blk block) where
  sb := rfl
  ref := rfl
  valid := rfl
  inode := rfl
  super := by
    refine readsb_congr (Function.update_of_ne ?_ ..)
    exact ((layout.one_lt_bmapstart).trans_le behind).ne
  dinode i inside :=
    dinode_setBlock ((layout.iblock_lt inside).2.trans_le behind).ne

theorem sameInodes_mark (layout : s.sb.Layout) (inside : b < s.sb.size) :
    SameInodes s (s.mark b) :=
  sameInodes_setBlock layout (layout.bblock_lt inside).1

theorem sameInodes_clear (layout : s.sb.Layout) (inside : b < s.sb.size) :
    SameInodes s (s.clear b) :=
  sameInodes_setBlock layout (layout.bblock_lt inside).1

/-- The bitmap does not lie among the data blocks. -/
theorem disk_mark (layout : s.sb.Layout) (inside : b < s.sb.size)
    (data : s.sb.nmeta ≤ c) : (s.mark b).disk c = s.disk c :=
  Function.update_of_ne ((layout.bblock_lt inside).2.trans_le data).ne' ..

theorem disk_clear (layout : s.sb.Layout) (inside : b < s.sb.size)
    (data : s.sb.nmeta ≤ c) : (s.clear b).disk c = s.disk c :=
  Function.update_of_ne ((layout.bblock_lt inside).2.trans_le data).ne' ..

theorem bit_setBlock_of_data (layout : s.sb.Layout) (data : s.sb.nmeta ≤ blk)
    (inside : c < s.sb.size) : (s.setBlock blk block).bit c = s.bit c :=
  bit_setBlock ((layout.bblock_lt inside).2.trans_le data).ne

end Frames

namespace FsState

/-- The inode as the kernel knows it. -/
def view (s : FsState) (i : Nat) : Dinode :=
  if s.valid i then s.inode i else s.dinode i

/-- The block number stored at a place, as the kernel knows it. -/
def holds (s : FsState) : Nat × Spot → Option Nat :=
  held s.disk s.view s.sb.ninodes

/-- The data blocks marked in the bitmap. -/
def Used (s : FsState) (b : Nat) : Prop :=
  s.sb.IsData b ∧ s.bit b = true

/-- The inode is in use. -/
def Allocated (s : FsState) (i : Nat) : Prop :=
  s.IsInode i ∧ (s.view i).type ≠ 0

/-- The part of a file in front of an offset has all its blocks. -/
def Covered (s : FsState) (i off : Nat) : Prop :=
  ∀ bn, bn * bsize < off → ∃ spot b, spotOf bn = some spot ∧ s.holds (i, spot) = some b

end FsState

/-- The invariant, which also holds in the middle of an operation. -/
structure Ok (s : FsState) : Prop where
  layout : s.sb.Layout
  super : readsb s.disk = s.sb
  reserved : ∀ b, b < s.sb.nmeta → s.bit b = true
  accounts : Accounted s.holds s.Used
  refs : ∀ i, 0 < s.ref i → s.IsInode i
  live : ∀ i, s.valid i = true → s.IsInode i ∧ (s.inode i).type ≠ 0

section Holding

variable {s t u : FsState} {i b c : Nat} {spot : Spot} {place : Nat × Spot}

theorem toNat_ne_zero {x : UInt32} : x.toNat ≠ 0 ↔ x ≠ 0 := by
  rw [ne_eq, ne_eq, ← UInt32.toNat_inj]
  rfl

theorem held_eq_some {disk : Disk} {inode : Nat → Dinode} {ninodes : Nat} :
    held disk inode ninodes (i, spot) = some b ↔
      ((0 < i ∧ i < ninodes) ∧ (inode i).type ≠ 0) ∧
        entry disk (inode i) spot = b ∧ b ≠ 0 := by
  unfold held
  split
  · rename_i stored
    obtain ⟨low, high, type, nonzero⟩ := stored
    rw [Option.some.injEq]
    refine ⟨fun same => ?_, fun stored => stored.2.1⟩
    subst same
    exact ⟨⟨⟨low, high⟩, type⟩, rfl, nonzero⟩
  · rename_i empty
    refine ⟨fun same => absurd same (Option.some_ne_none _).symm, ?_⟩
    rintro ⟨⟨⟨low, high⟩, type⟩, rfl, nonzero⟩
    exact absurd ⟨low, high, type, nonzero⟩ empty

theorem holds_eq_some : s.holds (i, spot) = some b ↔
    s.Allocated i ∧ entry s.disk (s.view i) spot = b ∧ b ≠ 0 :=
  held_eq_some

theorem view_of_valid (valid : s.valid i = true) : s.view i = s.inode i := by
  rw [FsState.view, if_pos valid]

/-- A place whose entry does not change holds the same block. -/
theorem holds_congr (sb : u.sb = s.sb)
    (type : s.IsInode i → (u.view i).type = (s.view i).type)
    (entries : s.Allocated i →
      entry u.disk (u.view i) spot = entry s.disk (s.view i) spot) :
    u.holds (i, spot) = s.holds (i, spot) := by
  ext b
  rw [holds_eq_some, holds_eq_some]
  have inodes : u.IsInode i ↔ s.IsInode i := by
    rw [FsState.IsInode, FsState.IsInode, sb]
  constructor
  · rintro ⟨⟨inode, used⟩, rfl, nonzero⟩
    rw [inodes] at inode
    rw [type inode] at used
    exact ⟨⟨inode, used⟩, (entries ⟨inode, used⟩).symm, nonzero⟩
  · rintro ⟨⟨inode, used⟩, rfl, nonzero⟩
    refine ⟨⟨inodes.mpr inode, ?_⟩, entries ⟨inode, used⟩, nonzero⟩
    rw [type inode]
    exact used

/-- An entry depends only on the inode and its indirect block. -/
theorem entry_congr {disk disk' : Disk} {d : Dinode}
    (same : d.addrs (Fin.last ndirect) ≠ 0 →
      disk' (d.addrs (Fin.last ndirect)).toNat =
        disk (d.addrs (Fin.last ndirect)).toNat) :
    entry disk' d spot = entry disk d spot := by
  cases spot with
  | addr k => rfl
  | indirect j =>
      unfold entry
      dsimp only
      split
      · rfl
      · rename_i present
        rw [same present]

/-- The indirect block of an inode is one of those it stores. -/
theorem holds_indirect (allocated : s.Allocated i)
    (present : (s.view i).addrs (Fin.last ndirect) ≠ 0) :
    s.holds (i, .addr (Fin.last ndirect)) =
      some ((s.view i).addrs (Fin.last ndirect)).toNat :=
  holds_eq_some.mpr ⟨allocated, rfl, toNat_ne_zero.mpr present⟩

/-- An indirect entry belongs to an indirect block. -/
theorem indirect_present {j : Fin nindirect}
    (stored : s.holds (i, .indirect j) = some b) :
    (s.view i).addrs (Fin.last ndirect) ≠ 0 := by
  intro absent
  obtain ⟨-, value, nonzero⟩ := holds_eq_some.mp stored
  unfold entry at value
  dsimp only at value
  rw [if_pos absent] at value
  exact nonzero value.symm

theorem Ok.isData (ok : Ok s) (stored : s.holds place = some b) : s.sb.IsData b :=
  (ok.accounts.used_of_held stored).1

theorem Ok.bit (ok : Ok s) (stored : s.holds place = some b) : s.bit b = true :=
  (ok.accounts.used_of_held stored).2

/-- Blocks that nobody stores may change. -/
theorem Ok.entry_congr (ok : Ok s) {disk : Disk}
    (same : ∀ c, s.Used c → disk c = s.disk c) (allocated : s.Allocated i) :
    entry disk (s.view i) spot = entry s.disk (s.view i) spot := by
  refine Blocks.entry_congr fun present => same _ ?_
  exact ok.accounts.used_of_held (holds_indirect allocated present)

theorem SameInodes.view (same : SameInodes s t) (inside : i < s.sb.ninodes) :
    t.view i = s.view i := by
  unfold FsState.view
  rw [same.valid, same.inode, same.dinode i inside]

/-- The part of the invariant that does not depend on what is stored. -/
theorem Ok.congr (ok : Ok s) (sb : u.sb = s.sb) (super : readsb u.disk = s.sb)
    (bits : ∀ c, c < s.sb.size → u.bit c = s.bit c)
    (holds : ∀ place, u.holds place = s.holds place)
    (refs : ∀ i, 0 < u.ref i → s.IsInode i)
    (live : ∀ i, u.valid i = true → s.IsInode i ∧ (u.inode i).type ≠ 0) : Ok u where
  layout := sb ▸ ok.layout
  super := super.trans sb.symm
  reserved b inside := by
    rw [sb] at inside
    rw [bits b (inside.trans_le (Superblock.Layout.nmeta_le _))]
    exact ok.reserved b inside
  accounts := by
    refine ok.accounts.congr holds fun c => ?_
    unfold FsState.Used
    rw [sb]
    exact and_congr_right fun data => by rw [bits c data.2]
  refs i counted := by
    unfold FsState.IsInode
    rw [sb]
    exact refs i counted
  live i valid := by
    unfold FsState.IsInode
    rw [sb]
    exact live i valid

end Holding

/-- Any panic but "freeing free block". -/
def NotFreeing (panic : FsPanic) : Prop :=
  panic ≠ .freeingFreeBlock

/-- What `balloc` does: it marks a free data block and clears it. -/
structure Fresh (s t : FsState) (b : Nat) : Prop where
  same : SameInodes s t
  data : s.sb.IsData b
  free : s.bit b = false
  bits : ∀ c, c < s.sb.size → t.bit c = (decide (c = b) || s.bit c)
  zero : t.disk b = fun _ => 0
  disk : ∀ c, s.sb.nmeta ≤ c → c ≠ b → t.disk c = s.disk c

section Allocating

variable {s t u : FsState} {i b c : Nat} {spot : Spot} {place : Nat × Spot}

theorem balloc_spec (ok : Ok s) : wp NotFreeing balloc (fun b t => Fresh s t b) s := by
  unfold balloc
  simp only [wp_bind, wp_get]
  cases found : (List.range s.sb.size).find? fun b => !s.bit b with
  | none => exact show FsPanic.outOfBlocks ≠ .freeingFreeBlock by rintro ⟨⟩
  | some b =>
      have inside : b < s.sb.size := List.mem_range.mp (List.mem_of_find?_eq_some found)
      have free : s.bit b = false := by simpa using List.find?_some found
      have data : s.sb.IsData b := by
        refine ⟨Nat.le_of_not_lt fun reserved => ?_, inside⟩
        rw [ok.reserved b reserved] at free
        cases free
      have behind : s.sb.bmapstart ≤ b := ok.layout.bmapstart_lt.le.trans data.1
      have marked := sameInodes_mark ok.layout inside
      have zeroed : SameInodes (s.mark b) ((s.mark b).setBlock b fun _ => 0) :=
        sameInodes_setBlock ok.layout behind
      simp only [wp_bind, wp_set, wp_pure, bzero, wp_modify]
      refine ⟨marked.trans zeroed, data, free, fun c bound => ?_,
        Function.update_self .., fun c low other => ?_⟩
      · rw [bit_setBlock_of_data (s := s.mark b) ok.layout data.1 bound, bit_mark]
      · refine (Function.update_of_ne other ..).trans ?_
        exact disk_mark ok.layout inside low

theorem Fresh.ne_of_used (fresh : Fresh s t b) (used : s.Used c) : c ≠ b := by
  rintro rfl
  have free := fresh.free
  rw [used.2] at free
  cases free

theorem Fresh.disk_of_used (fresh : Fresh s t b) (used : s.Used c) :
    t.disk c = s.disk c :=
  fresh.disk c used.1.1 (fresh.ne_of_used used)

/-- A block from `balloc` is stored at an empty place. -/
theorem Ok.assign (ok : Ok s) (fresh : Fresh s t b) (sb : u.sb = s.sb)
    (super : readsb u.disk = s.sb)
    (bits : ∀ c, c < s.sb.size → u.bit c = t.bit c)
    (empty : s.holds place = none) (here : u.holds place = some b)
    (elsewhere : ∀ other, other ≠ place → u.holds other = s.holds other)
    (ref : u.ref = s.ref) (valid : u.valid = s.valid)
    (type : ∀ i, (u.inode i).type = (s.inode i).type) : Ok u where
  layout := sb ▸ ok.layout
  super := super.trans sb.symm
  reserved c inside := by
    rw [sb] at inside
    have bound := inside.trans_le (Superblock.Layout.nmeta_le s.sb)
    rw [bits c bound, fresh.bits c bound, ok.reserved c inside, Bool.or_true]
  accounts := by
    refine ok.accounts.assign (fun used => fresh.ne_of_used used rfl) empty here elsewhere
      fun c => ?_
    unfold FsState.Used
    rw [sb]
    constructor
    · rintro ⟨data, marked⟩
      rw [bits c data.2, fresh.bits c data.2, Bool.or_eq_true, decide_eq_true_eq] at marked
      exact marked.imp_right fun before => ⟨data, before⟩
    · rintro (rfl | ⟨data, marked⟩)
      · refine ⟨fresh.data, ?_⟩
        rw [bits c fresh.data.2, fresh.bits c fresh.data.2]
        simp
      · refine ⟨data, ?_⟩
        rw [bits c data.2, fresh.bits c data.2, marked, Bool.or_true]
  refs i counted := by
    rw [ref] at counted
    unfold FsState.IsInode
    rw [sb]
    exact ok.refs i counted
  live i isValid := by
    rw [valid] at isValid
    unfold FsState.IsInode
    rw [sb, type i]
    exact ok.live i isValid

@[simp]
theorem setAddr_self (d : Dinode) (k : Fin (ndirect + 1)) (addr : UInt32) :
    (d.setAddr k addr).addrs k = addr :=
  Function.update_self ..

theorem setAddr_of_ne (d : Dinode) {k l : Fin (ndirect + 1)} (addr : UInt32)
    (other : l ≠ k) : (d.setAddr k addr).addrs l = d.addrs l :=
  Function.update_of_ne other ..

/-- Changing a direct address does not change the indirect ones. -/
theorem entry_setAddr_indirect {disk : Disk} {d : Dinode} {k : Fin (ndirect + 1)}
    {addr : UInt32} {j : Fin nindirect} (direct : k ≠ Fin.last ndirect) :
    entry disk (d.setAddr k addr) (.indirect j) = entry disk d (.indirect j) := by
  rw [entry, entry, setAddr_of_ne d addr (Ne.symm direct)]

/-- What `bmap` leaves alone, and that it forgets no block. -/
structure Mapped (s t : FsState) (i : Nat) : Prop where
  sb : t.sb = s.sb
  ref : t.ref = s.ref
  valid : t.valid = s.valid
  others : ∀ j, j ≠ i → t.inode j = s.inode j
  dinode : ∀ j, j < s.sb.ninodes → t.dinode j = s.dinode j
  fields : ∃ addrs, t.inode i = { s.inode i with addrs := addrs }
  keeps : ∀ place c, s.holds place = some c → t.holds place = some c

theorem Mapped.refl (s : FsState) (i : Nat) : Mapped s s i :=
  ⟨rfl, rfl, rfl, fun _ _ => rfl, fun _ _ => rfl, ⟨_, rfl⟩, fun _ _ stored => stored⟩

theorem Mapped.trans (first : Mapped s t i) (second : Mapped t u i) :
    Mapped s u i where
  sb := second.sb.trans first.sb
  ref := second.ref.trans first.ref
  valid := second.valid.trans first.valid
  others j other := (second.others j other).trans (first.others j other)
  dinode j inside :=
    (second.dinode j (first.sb ▸ inside)).trans (first.dinode j inside)
  fields := by
    obtain ⟨_, one⟩ := first.fields
    obtain ⟨addrs, two⟩ := second.fields
    refine ⟨addrs, ?_⟩
    rw [two, one]
  keeps place c stored := second.keeps place c (first.keeps place c stored)

/-- The number of a block from `balloc` survives as a `uint`. -/
theorem toNat_ofNat (ok : Ok s) (data : s.sb.IsData b) : (UInt32.ofNat b).toNat = b :=
  UInt32.toNat_ofNat_of_lt' (ok.layout.isData_bounds data).2

/-- `ip->addrs[k] = balloc(ip->dev)` -/
theorem assign_addr {k : Fin (ndirect + 1)} (ok : Ok s) (fresh : Fresh s t b)
    (valid : s.valid i = true) (empty : (s.inode i).addrs k = 0) :
    Ok (t.setInode i ((t.inode i).setAddr k (UInt32.ofNat b))) ∧
      Mapped s (t.setInode i ((t.inode i).setAddr k (UInt32.ofNat b))) i ∧
      (t.setInode i ((t.inode i).setAddr k (UInt32.ofNat b))).holds (i, .addr k) =
        some b := by
  have same := fresh.same
  obtain ⟨inode, type⟩ := ok.live i valid
  generalize defined : t.setInode i ((t.inode i).setAddr k (UInt32.ofNat b)) = u
  have disk : u.disk = t.disk := by rw [← defined]; rfl
  have sb : u.sb = s.sb := by rw [← defined]; exact same.sb
  have ref : u.ref = s.ref := by rw [← defined]; exact same.ref
  have sameValid : u.valid = s.valid := by rw [← defined]; exact same.valid
  have here : u.inode i = (s.inode i).setAddr k (UInt32.ofNat b) := by
    rw [← defined, ← same.inode]
    exact Function.update_self ..
  have others (j : Nat) (other : j ≠ i) : u.inode j = s.inode j := by
    rw [← defined, ← same.inode]
    exact Function.update_of_ne other ..
  have dinode (j : Nat) (inside : j < s.sb.ninodes) : u.dinode j = s.dinode j := by
    rw [← same.dinode j inside, ← defined]
    rfl
  have viewHere : u.view i = (s.inode i).setAddr k (UInt32.ofNat b) := by
    rw [view_of_valid (by rw [sameValid, valid]), here]
  have viewBefore : s.view i = s.inode i := view_of_valid valid
  have viewOther (j : Nat) (other : j ≠ i) (inside : j < s.sb.ninodes) :
      u.view j = s.view j := by
    unfold FsState.view
    rw [sameValid, others j other, dinode j inside]
  have unchanged (c : Nat) (used : s.Used c) : u.disk c = s.disk c := by
    rw [disk, fresh.disk_of_used used]
  have allocated : u.Allocated i := by
    refine ⟨?_, by rw [viewHere]; exact type⟩
    rw [FsState.IsInode, sb]
    exact inode
  have nothing : s.holds (i, .addr k) = none := by
    rw [Option.eq_none_iff_forall_ne_some]
    intro c stored
    obtain ⟨-, value, nonzero⟩ := holds_eq_some.mp stored
    rw [viewBefore] at value
    exact nonzero (value.symm.trans (by rw [entry, empty]; rfl))
  have stored : u.holds (i, .addr k) = some b := by
    refine holds_eq_some.mpr ⟨allocated, ?_, (ok.layout.isData_bounds fresh.data).1⟩
    rw [viewHere, entry, setAddr_self, toNat_ofNat ok fresh.data]
  have elsewhere (other : Nat × Spot) (apart : other ≠ (i, .addr k)) :
      u.holds other = s.holds other := by
    obtain ⟨j, spot⟩ := other
    by_cases mine : j = i
    · subst mine
      refine holds_congr sb (fun _ => by rw [viewHere, viewBefore]; rfl) fun before => ?_
      rw [viewHere, viewBefore]
      cases spot with
      | addr l =>
          have different : l ≠ k := fun equal => apart (by rw [equal])
          exact congrArg UInt32.toNat (setAddr_of_ne _ _ different)
      | indirect l =>
          by_cases last : k = Fin.last ndirect
          · subst last
            rw [entry, entry, if_pos empty, setAddr_self]
            split
            · rfl
            · rw [toNat_ofNat ok fresh.data, disk, fresh.zero, getWord_zero]
          · rw [entry_setAddr_indirect last, ← viewBefore]
            exact ok.entry_congr unchanged before
    · refine holds_congr sb (fun inside => by rw [viewOther j mine inside.2])
        fun before => ?_
      rw [viewOther j mine before.1.2]
      exact ok.entry_congr unchanged before
  refine ⟨?_, ?_, stored⟩
  · refine ok.assign fresh sb ?_ (fun c _ => ?_) nothing stored elsewhere ref sameValid
      fun j => ?_
    · rw [disk, same.super, ok.super]
    · rw [FsState.bit, FsState.bit, disk, sb, same.sb]
    · by_cases mine : j = i
      · subst mine
        rw [here]
        rfl
      · rw [others j mine]
  · refine ⟨sb, ref, sameValid, others, dinode, ⟨_, here⟩, fun place c before => ?_⟩
    rwa [elsewhere place]
    rintro rfl
    rw [nothing] at before
    cases before

theorem bmapAddr_of_stored {k : Fin (ndirect + 1)} (valid : s.valid i = true)
    (stored : s.holds (i, .addr k) = some b) : bmapAddr i k s = .ok (b, s) := by
  obtain ⟨-, value, nonzero⟩ := holds_eq_some.mp stored
  rw [view_of_valid valid, entry] at value
  have present : (s.inode i).addrs k ≠ 0 := by
    rw [← toNat_ne_zero, value]
    exact nonzero
  change (if (s.inode i).addrs k = 0 then _ else _ : Fs Nat) s = _
  rw [if_neg present, value]
  rfl

theorem bmapAddr_spec {k : Fin (ndirect + 1)} (ok : Ok s) (valid : s.valid i = true) :
    wp NotFreeing (bmapAddr i k)
      (fun b t => Ok t ∧ Mapped s t i ∧ t.holds (i, .addr k) = some b) s := by
  by_cases empty : (s.inode i).addrs k = 0
  · unfold bmapAddr
    simp only [wp_bind, wp_get, if_pos empty]
    refine wp_mono (balloc_spec ok) fun b t fresh => ?_
    simp only [wp_modify, wp_pure]
    exact assign_addr ok fresh valid empty
  · have stored : s.holds (i, .addr k) = some ((s.inode i).addrs k).toNat := by
      obtain ⟨inode, type⟩ := ok.live i valid
      have view : s.view i = s.inode i := view_of_valid valid
      refine holds_eq_some.mpr ⟨⟨inode, view ▸ type⟩, ?_, toNat_ne_zero.mpr empty⟩
      rw [view, entry]
    rw [wp, bmapAddr_of_stored valid stored]
    exact ⟨ok, Mapped.refl s i, stored⟩

/-- An element of an indirect block that is zero holds nothing. -/
theorem holds_indirect_eq_none {a : Nat} {j : Fin nindirect}
    (indirect : s.holds (i, .addr (Fin.last ndirect)) = some a)
    (empty : getWord (s.disk a) (4 * j.val) = 0) : s.holds (i, .indirect j) = none := by
  rw [Option.eq_none_iff_forall_ne_some]
  intro c stored
  have present := indirect_present stored
  obtain ⟨-, value, nonzero⟩ := holds_eq_some.mp stored
  obtain ⟨-, block, -⟩ := holds_eq_some.mp indirect
  rw [entry] at block
  rw [entry, if_neg present, block, empty] at value
  exact nonzero value.symm

/-- An element of an indirect block that is not zero is a block number. -/
theorem holds_indirect_eq_some {a : Nat} {j : Fin nindirect}
    (indirect : s.holds (i, .addr (Fin.last ndirect)) = some a)
    (present : getWord (s.disk a) (4 * j.val) ≠ 0) :
    s.holds (i, .indirect j) = some (getWord (s.disk a) (4 * j.val)) := by
  obtain ⟨allocated, block, nonzero⟩ := holds_eq_some.mp indirect
  have loaded : (s.view i).addrs (Fin.last ndirect) ≠ 0 := by
    rw [← toNat_ne_zero]
    exact fun zero => nonzero (block.symm.trans zero)
  rw [entry] at block
  refine holds_eq_some.mpr ⟨allocated, ?_, present⟩
  rw [entry, if_neg loaded, block]

/-- `a[bn] = balloc(ip->dev)` -/
theorem assign_indirect {a : Nat} {j : Fin nindirect} (ok : Ok s) (fresh : Fresh s t b)
    (indirect : s.holds (i, .addr (Fin.last ndirect)) = some a)
    (empty : getWord (s.disk a) (4 * j.val) = 0) :
    Ok (t.setBlock a (setWord (t.disk a) (4 * j.val) b)) ∧
      Mapped s (t.setBlock a (setWord (t.disk a) (4 * j.val) b)) i ∧
      (t.setBlock a (setWord (t.disk a) (4 * j.val) b)).holds (i, .indirect j) =
        some b := by
  have usedA : s.Used a := ok.accounts.used_of_held indirect
  have layout : t.sb.Layout := fresh.same.sb ▸ ok.layout
  have dataA : t.sb.nmeta ≤ a := fresh.same.sb ▸ usedA.1.1
  have nothing := holds_indirect_eq_none indirect empty
  obtain ⟨allocated, block, nonzero⟩ := holds_eq_some.mp indirect
  have room : 4 * j.val + 4 ≤ bsize := by
    have : j.val < 128 := j.isLt
    have : bsize = 512 := rfl
    omega
  generalize defined : t.setBlock a (setWord (t.disk a) (4 * j.val) b) = u
  have same : SameInodes s u := by
    rw [← defined]
    exact fresh.same.trans (sameInodes_setBlock layout
      (layout.bmapstart_lt.le.trans dataA))
  have diskA : u.disk a = setWord (s.disk a) (4 * j.val) b := by
    rw [← fresh.disk_of_used usedA, ← defined]
    exact Function.update_self ..
  have diskOther (c : Nat) (used : s.Used c) (other : c ≠ a) : u.disk c = s.disk c := by
    rw [← fresh.disk_of_used used, ← defined]
    exact Function.update_of_ne other ..
  have bits (c : Nat) (bound : c < s.sb.size) : u.bit c = t.bit c := by
    rw [← defined]
    exact bit_setBlock_of_data layout dataA (fresh.same.sb.symm ▸ bound)
  have view (l : Nat) (inside : s.IsInode l) : u.view l = s.view l :=
    same.view inside.2
  have stored : u.holds (i, .indirect j) = some b := by
    have bounds := ok.layout.isData_bounds fresh.data
    refine holds_eq_some.mpr ⟨⟨?_, ?_⟩, ?_, bounds.1⟩
    · rw [FsState.IsInode, same.sb]
      exact allocated.1
    · rw [view i allocated.1]
      exact allocated.2
    · have present : (s.view i).addrs (Fin.last ndirect) ≠ 0 := by
        rw [← toNat_ne_zero]
        exact fun zero => nonzero (block.symm.trans zero)
      rw [entry] at block
      rw [view i allocated.1, entry, if_neg present, block, diskA,
        getWord_setWord _ _ room, Nat.mod_eq_of_lt bounds.2]
  have elsewhere (other : Nat × Spot) (apart : other ≠ (i, .indirect j)) :
      u.holds other = s.holds other := by
    obtain ⟨l, spot⟩ := other
    refine holds_congr same.sb (fun inside => by rw [view l inside]) fun before => ?_
    rw [view l before.1]
    cases spot with
    | addr k => rfl
    | indirect k =>
        by_cases present : (s.view l).addrs (Fin.last ndirect) = 0
        · rw [entry, entry, if_pos present, if_pos present]
        · have theirs := holds_indirect before present
          rw [entry, entry, if_neg present, if_neg present]
          by_cases shared : ((s.view l).addrs (Fin.last ndirect)).toNat = a
          · rw [shared] at theirs
            have mine : l = i := (Prod.mk.inj (ok.accounts.apart theirs indirect)).1
            have different : k.val ≠ j.val := fun equal => apart (by rw [mine, Fin.ext equal])
            rw [shared, diskA, getWord_setWord_of_disjoint _ _ room (by omega)]
          · rw [diskOther _ (ok.accounts.used_of_held theirs) shared]
  refine ⟨?_, ?_, stored⟩
  · refine ok.assign fresh same.sb (same.super.trans ok.super) bits nothing stored
      elsewhere same.ref same.valid fun l => ?_
    rw [same.inode]
  · refine ⟨same.sb, same.ref, same.valid, fun l _ => by rw [same.inode], same.dinode,
      ⟨(s.inode i).addrs, by rw [same.inode]⟩, fun place c before => ?_⟩
    rwa [elsewhere place]
    rintro rfl
    rw [nothing] at before
    cases before

theorem bmapIndirect_of_stored {a : Nat} {j : Fin nindirect}
    (indirect : s.holds (i, .addr (Fin.last ndirect)) = some a)
    (stored : s.holds (i, .indirect j) = some b) :
    bmapIndirect a j.val s = .ok (b, s) := by
  have present := indirect_present stored
  obtain ⟨-, value, nonzero⟩ := holds_eq_some.mp stored
  obtain ⟨-, block, -⟩ := holds_eq_some.mp indirect
  rw [entry] at block
  rw [entry, if_neg present, block] at value
  change (if getWord (s.disk a) (4 * j.val) = 0 then _ else _ : Fs Nat) s = _
  rw [value, if_neg nonzero]
  rfl

theorem bmapIndirect_spec {a : Nat} {j : Fin nindirect} (ok : Ok s)
    (indirect : s.holds (i, .addr (Fin.last ndirect)) = some a) :
    wp NotFreeing (bmapIndirect a j.val)
      (fun b t => Ok t ∧ Mapped s t i ∧ t.holds (i, .indirect j) = some b) s := by
  by_cases empty : getWord (s.disk a) (4 * j.val) = 0
  · unfold bmapIndirect
    simp only [wp_bind, wp_get, if_pos empty]
    refine wp_mono (balloc_spec ok) fun b t fresh => ?_
    simp only [wp_modify, wp_pure]
    exact assign_indirect ok fresh indirect empty
  · have stored := holds_indirect_eq_some indirect empty
    rw [wp, bmapIndirect_of_stored indirect stored]
    exact ⟨ok, Mapped.refl s i, stored⟩

theorem spotOf_direct {bn : Nat} (direct : bn < ndirect) :
    spotOf bn = some (.addr ⟨bn, Nat.lt_succ_of_lt direct⟩) :=
  dif_pos direct

theorem spotOf_indirect {bn : Nat} (indirect : ¬ bn < ndirect)
    (inside : bn - ndirect < nindirect) :
    spotOf bn = some (.indirect ⟨bn - ndirect, inside⟩) :=
  (dif_neg indirect).trans (dif_pos inside)

/-- `bmap` does not allocate where there is a block. -/
theorem bmap_of_stored {bn : Nat} (valid : s.valid i = true)
    (index : spotOf bn = some spot) (stored : s.holds (i, spot) = some b) :
    bmap i bn s = .ok (b, s) := by
  unfold spotOf at index
  unfold bmap
  split at index
  · rename_i direct
    cases index
    rw [dif_pos direct]
    exact bmapAddr_of_stored valid stored
  · rename_i indirect
    split at index
    · rename_i inside
      cases index
      rw [dif_neg indirect, if_pos inside]
      have block := holds_indirect (holds_eq_some.mp stored).1 (indirect_present stored)
      change (bmapAddr i (Fin.last ndirect) s).bind
        (fun pair => bmapIndirect pair.1 (bn - ndirect) pair.2) = _
      rw [bmapAddr_of_stored valid block]
      have found := bmapIndirect_of_stored block stored
      exact found
    · cases index

/-- `bmap` returns the block with this index, which the inode stores from then
on. -/
theorem bmap_spec {bn : Nat} (ok : Ok s) (valid : s.valid i = true) :
    wp NotFreeing (bmap i bn)
      (fun b t => Ok t ∧ Mapped s t i ∧
        ∃ spot, spotOf bn = some spot ∧ t.holds (i, spot) = some b) s := by
  unfold bmap
  split
  · rename_i direct
    refine wp_mono (bmapAddr_spec ok valid) fun b t holds => ?_
    obtain ⟨okay, mapped, stored⟩ := holds
    exact ⟨okay, mapped, _, spotOf_direct direct, stored⟩
  · rename_i indirect
    split
    · rename_i inside
      simp only [wp_bind]
      refine wp_mono (bmapAddr_spec ok valid) fun a t holds => ?_
      obtain ⟨okay, mapped, stored⟩ := holds
      refine wp_mono (bmapIndirect_spec (j := ⟨_, inside⟩) okay stored) fun b u ends => ?_
      obtain ⟨last, second, found⟩ := ends
      exact ⟨last, mapped.trans second, _, spotOf_indirect indirect inside, found⟩
    · exact show FsPanic.outOfRange ≠ .freeingFreeBlock by rintro ⟨⟩

end Allocating

section Writing

variable {s t u : FsState} {i b off left fuel : Nat} {spot : Spot} {block : Block}
  {src : Nat → UInt8}

theorem spotOf_ne_last {bn : Nat} (index : spotOf bn = some spot) :
    spot ≠ .addr (Fin.last ndirect) := by
  unfold spotOf at index
  split at index
  · rename_i direct
    cases index
    intro same
    have equal : bn = ndirect := congrArg Fin.val (Spot.addr.inj same)
    exact direct.ne equal
  · split at index
    · cases index
      nofun
    · cases index

theorem Mapped.of_same (same : SameInodes s t)
    (holds : ∀ place, t.holds place = s.holds place) : Mapped s t i where
  sb := same.sb
  ref := same.ref
  valid := same.valid
  others j _ := by rw [same.inode]
  dinode := same.dinode
  fields := ⟨(s.inode i).addrs, by rw [same.inode]⟩
  keeps place c stored := (holds place).trans stored

/-- A write to a block of a file is not a write to an indirect block. -/
theorem setBlock_file (block : Bytes bsize) (ok : Ok s) (stored : s.holds (i, spot) = some b)
    (file : spot ≠ .addr (Fin.last ndirect)) :
    Ok (s.setBlock b block) ∧ SameInodes s (s.setBlock b block) ∧
      ∀ place, (s.setBlock b block).holds place = s.holds place := by
  have data := ok.isData stored
  have same : SameInodes s (s.setBlock b block) :=
    sameInodes_setBlock ok.layout (ok.layout.bmapstart_lt.le.trans data.1)
  have holds (place : Nat × Spot) :
      (s.setBlock b block).holds place = s.holds place := by
    obtain ⟨j, other⟩ := place
    refine holds_congr rfl (fun inside => by rw [same.view inside.2]) fun before => ?_
    rw [same.view before.1.2]
    refine entry_congr fun present => Function.update_of_ne (fun equal => ?_) ..
    have theirs := holds_indirect before present
    rw [equal] at theirs
    exact file (Prod.mk.inj (ok.accounts.apart stored theirs)).2
  refine ⟨?_, same, holds⟩
  refine ok.congr rfl (same.super.trans ok.super) (fun c bound => ?_) holds ok.refs ok.live
  exact bit_setBlock_of_data ok.layout data.1 bound

theorem Mapped.covered (mapped : Mapped s t i) (covered : s.Covered i off) :
    t.Covered i off := by
  intro bn inside
  obtain ⟨spot, b, index, stored⟩ := covered bn inside
  exact ⟨spot, b, index, mapped.keeps _ _ stored⟩

theorem Covered.mono {last : Nat} (covered : s.Covered i last) (less : off ≤ last) :
    s.Covered i off :=
  fun bn inside => covered bn (inside.trans_le less)

/-- The block that contains an offset covers the file up to its end. -/
theorem covered_step {m : Nat} (covered : s.Covered i off)
    (index : spotOf (off / bsize) = some spot) (stored : s.holds (i, spot) = some b)
    (fits : m ≤ bsize - off % bsize) : s.Covered i (off + m) := by
  intro bn inside
  by_cases before : bn * bsize < off
  · exact covered bn before
  · have same : bn = off / bsize := by
      have : bsize = 512 := rfl
      simp only [this] at *
      omega
    rw [same]
    exact ⟨spot, b, index, stored⟩

/-- `bmap` changes nothing where there is a block. -/
theorem bmap_spec_stored {bn : Nat} (ok : Ok s) (valid : s.valid i = true) :
    wp NotFreeing (bmap i bn)
      (fun b t => (Ok t ∧ Mapped s t i ∧
        ∃ spot, spotOf bn = some spot ∧ t.holds (i, spot) = some b) ∧
        ∀ spot c, spotOf bn = some spot → s.holds (i, spot) = some c → t = s) s := by
  by_cases known : ∃ spot c, spotOf bn = some spot ∧ s.holds (i, spot) = some c
  · obtain ⟨spot, c, index, stored⟩ := known
    rw [wp, bmap_of_stored valid index stored]
    exact ⟨⟨ok, Mapped.refl s i, spot, index, stored⟩, fun _ _ _ _ => rfl⟩
  · refine wp_mono (bmap_spec ok valid) fun b t mapped => ⟨mapped, ?_⟩
    exact fun spot c index stored => absurd ⟨spot, c, index, stored⟩ known

/-- The loop of `writei` covers the file up to where it ends, and allocates
nothing inside the part already covered. -/
theorem writeBytes_spec (ok : Ok s) (valid : s.valid i = true)
    (covered : s.Covered i off) (enough : left ≤ fuel) :
    wp NotFreeing (writeBytes i fuel src off left)
      (fun last t => Ok t ∧ Mapped s t i ∧ t.Covered i last ∧ last = off + left ∧
        (s.Covered i (off + left) → t.inode i = s.inode i)) s := by
  induction fuel generalizing s src off left with
  | zero =>
      have done : left = 0 := Nat.le_zero.mp enough
      subst done
      exact ⟨ok, Mapped.refl s i, covered, rfl, fun _ => rfl⟩
  | succ fuel ih =>
      unfold writeBytes
      by_cases done : left = 0
      · subst done
        rw [if_pos rfl]
        exact ⟨ok, Mapped.refl s i, covered, rfl, fun _ => rfl⟩
      · rw [if_neg done]
        simp only [wp_bind]
        refine wp_mono (bmap_spec_stored ok valid) fun b t mapping => ?_
        obtain ⟨⟨okT, mapped, spot, index, stored⟩, unchanged⟩ := mapping
        simp only [wp_modify]
        generalize copyInto _ _ _ _ = contents
        obtain ⟨okU, same, holds⟩ := setBlock_file contents okT stored
          (spotOf_ne_last index)
        have second : Mapped t (t.setBlock b contents) i := Mapped.of_same same holds
        have both := mapped.trans second
        have inBlock : off % bsize < bsize := Nat.mod_lt off (by decide)
        generalize chunk : min left (bsize - off % bsize) = m
        have step : (t.setBlock b contents).Covered i (off + m) :=
          covered_step (both.covered covered) index (second.keeps _ _ stored) (by omega)
        have shorter : left - m ≤ fuel := by omega
        refine wp_mono (ih okU ?_ step shorter) ?_
        · rw [both.valid]
          exact valid
        · rintro last v ⟨okV, third, upTo, reached, still⟩
          refine ⟨okV, both.trans third, upTo, by omega, fun all => ?_⟩
          have rest : off + m + (left - m) = off + left := by omega
          have start : off / bsize * bsize < off + left := by
            have := Nat.div_mul_le_self off bsize
            omega
          obtain ⟨before, c, sameIndex, present⟩ := all (off / bsize) start
          rw [still (rest ▸ both.covered all), same.inode,
            unchanged before c sameIndex present]

/-- The loop of `readi` finds all its blocks. -/
theorem readBytes_spec (valid : s.valid i = true) (covered : s.Covered i (off + left)) :
    wp (fun _ => False) (readBytes i fuel off left) (fun _ t => t = s) s := by
  induction fuel generalizing off left with
  | zero => rfl
  | succ fuel ih =>
      unfold readBytes
      by_cases done : left = 0
      · rw [if_pos done]
        rfl
      · rw [if_neg done]
        have start : off / bsize * bsize < off + left := by
          have := Nat.div_mul_le_self off bsize
          omega
        obtain ⟨spot, b, index, stored⟩ := covered (off / bsize) start
        simp only [wp_bind]
        rw [wp, bmap_of_stored valid index stored]
        simp only [wp_get]
        refine wp_mono (ih (Covered.mono covered (by omega))) fun rest t same => ?_
        exact same

end Writing

section Updating

variable {s t : FsState} {i j : Nat} {d : Dinode}

theorem eq_of_iblock_eq {sb : Superblock} (block : sb.iblock i = sb.iblock j)
    (slot : i % ipb = j % ipb) : i = j := by
  have quotient : i / ipb = j / ipb := by
    unfold Superblock.iblock at block
    omega
  rw [← Nat.div_add_mod i ipb, ← Nat.div_add_mod j ipb, quotient, slot]

theorem dinode_setDinode_self : (s.setDinode i d).dinode i = d := by
  have here : (s.setDinode i d).disk (s.sb.iblock i) =
      setDinode (s.disk (s.sb.iblock i)) (i % ipb) d :=
    Function.update_self ..
  change getDinode ((s.setDinode i d).disk (s.sb.iblock i)) (i % ipb) = d
  rw [here]
  exact getDinode_setDinode d (Nat.mod_lt i (by decide))

theorem dinode_setDinode_of_ne (other : j ≠ i) :
    (s.setDinode i d).dinode j = s.dinode j := by
  by_cases block : s.sb.iblock j = s.sb.iblock i
  · have here : (s.setDinode i d).disk (s.sb.iblock j) =
        setDinode (s.disk (s.sb.iblock i)) (i % ipb) d := by
      rw [block]
      exact Function.update_self ..
    change getDinode ((s.setDinode i d).disk (s.sb.iblock j)) (j % ipb) = _
    rw [here, getDinode_setDinode_of_ne d (Nat.mod_lt i (by decide))
      fun slot => other (eq_of_iblock_eq block slot), ← block]
    rfl
  · exact dinode_setBlock block

/-- A write to an inode block. -/
theorem setDinode_frame (layout : s.sb.Layout) (inside : i < s.sb.ninodes) :
    readsb (s.setDinode i d).disk = readsb s.disk ∧
      (∀ c, c < s.sb.size → (s.setDinode i d).bit c = s.bit c) ∧
      ∀ c, s.sb.nmeta ≤ c → (s.setDinode i d).disk c = s.disk c := by
  obtain ⟨low, high⟩ := layout.iblock_lt inside
  refine ⟨readsb_congr (Function.update_of_ne low.ne ..), fun c bound => ?_, fun c data => ?_⟩
  · exact bit_setBlock (high.trans_le (layout.bblock_lt bound).1).ne'
  · have behind := high.trans (layout.bmapstart_lt.trans_le data)
    exact Function.update_of_ne behind.ne' ..

/-- A change to the in-memory and on-disk inodes after which the same blocks
are stored. -/
theorem Ok.setInodes (ok : Ok s) (sb : t.sb = s.sb)
    (super : readsb t.disk = readsb s.disk)
    (bits : ∀ c, c < s.sb.size → t.bit c = s.bit c)
    (disk : ∀ c, s.sb.nmeta ≤ c → t.disk c = s.disk c)
    (holds : ∀ place, held s.disk t.view s.sb.ninodes place = s.holds place)
    (refs : ∀ l, 0 < t.ref l → s.IsInode l)
    (live : ∀ l, t.valid l = true → s.IsInode l ∧ (t.inode l).type ≠ 0) :
    Ok t ∧ ∀ place, t.holds place = s.holds place := by
  have same (place : Nat × Spot) : t.holds place = s.holds place := by
    rw [← holds place, FsState.holds, sb]
    obtain ⟨l, spot⟩ := place
    ext b
    rw [held_eq_some, held_eq_some]
    refine and_congr_right fun allocated => and_congr_left fun nonzero => ?_
    have entries : entry t.disk (t.view l) spot = entry s.disk (t.view l) spot := by
      refine Blocks.entry_congr fun present => disk _ ?_
      have stored : s.holds (l, .addr (Fin.last ndirect)) =
          some ((t.view l).addrs (Fin.last ndirect)).toNat := by
        rw [← holds]
        exact held_eq_some.mpr ⟨allocated, rfl, toNat_ne_zero.mpr present⟩
      exact (ok.isData stored).1
    rw [entries]
  exact ⟨ok.congr sb (super.trans ok.super) bits same refs live, same⟩

/-- `iupdate` of a valid inode: the kernel's view stays the same. -/
theorem iupdate_ok (ok : Ok s) (valid : s.valid i = true) :
    Ok (s.setDinode i (s.inode i)) ∧
      (∀ l, (s.setDinode i (s.inode i)).view l = s.view l) ∧
      ∀ place, (s.setDinode i (s.inode i)).holds place = s.holds place := by
  obtain ⟨super, bits, disk⟩ := setDinode_frame (d := s.inode i) ok.layout
    (ok.live i valid).1.2
  have view (l : Nat) : (s.setDinode i (s.inode i)).view l = s.view l := by
    change (if s.valid l then s.inode l else (s.setDinode i (s.inode i)).dinode l) = _
    by_cases mine : l = i
    · subst mine
      rw [if_pos valid, view_of_valid valid]
    · rw [dinode_setDinode_of_ne mine]
      rfl
  have sameView : (s.setDinode i (s.inode i)).view = s.view := funext view
  obtain ⟨okay, holds⟩ := ok.setInodes (t := s.setDinode i (s.inode i)) rfl super bits disk
    (fun place => by rw [sameView]; rfl) ok.refs ok.live
  exact ⟨okay, view, holds⟩

end Updating

end Xv6.Blocks
