import Mathlib.Logic.ExistsUnique
import Xv6.BufferCache
import Xv6.LabelledRuns
import Xv6.StateTriples

/-!
# Inodes and their blocks

The block and inode layers of `fs.c` over the bytes of the disk: the bitmap, the
inode blocks and the indirect blocks are read and written where the superblock
says they lie.  `disk` is what `bread` returns, that is the blocks with the
changes already given to `log_write`.  The in-memory inodes are indexed by their
numbers.
-/

namespace Xv6.Blocks

open ByteFields

/-- `NDIRECT` -/
abbrev ndirect : Nat := 12

/-- `NINDIRECT` -/
abbrev nindirect : Nat := bsize / 4

/-- `MAXFILE` -/
abbrev maxfile : Nat := ndirect + nindirect

/-- `IPB` -/
abbrev ipb : Nat := bsize / 64

/-- `BPB` -/
abbrev bpb : Nat := bsize * 8

/-- `ROOTINO` -/
abbrev rootino : Nat := 1

/-- `DIRSIZ` -/
abbrev dirsiz : Nat := 14

/-- `T_DIR` -/
abbrev tDir : UInt16 := 1

/-- `T_FILE` -/
abbrev tFile : UInt16 := 2

/-- `T_DEV` -/
abbrev tDev : UInt16 := 3

/-- The `panic` calls of these layers. -/
inductive FsPanic where
  /-- "balloc: out of blocks" -/
  | outOfBlocks
  /-- "freeing free block" -/
  | freeingFreeBlock
  /-- "ialloc: no inodes" -/
  | noInodes
  /-- "ilock" -/
  | ilock
  /-- "ilock: no type" -/
  | noType
  /-- "bmap: out of range" -/
  | outOfRange
  /-- "dirlookup not DIR" -/
  | notDir
  /-- "dirlookup read" -/
  | dirRead
  deriving DecidableEq

/-- `struct superblock` -/
structure Superblock where
  size : Nat
  nblocks : Nat
  ninodes : Nat
  nlog : Nat
  logstart : Nat
  inodestart : Nat
  bmapstart : Nat
  deriving DecidableEq

/-- `readsb` -/
def readsb (disk : Disk) : Superblock where
  size := getWord (disk 1) 0
  nblocks := getWord (disk 1) 4
  ninodes := getWord (disk 1) 8
  nlog := getWord (disk 1) 12
  logstart := getWord (disk 1) 16
  inodestart := getWord (disk 1) 20
  bmapstart := getWord (disk 1) 24

namespace Superblock

/-- `BBLOCK` -/
def bblock (sb : Superblock) (b : Nat) : Nat :=
  b / bpb + sb.bmapstart

/-- `IBLOCK` -/
def iblock (sb : Superblock) (i : Nat) : Nat :=
  i / ipb + sb.inodestart

/-- The blocks in front of the data blocks. -/
def nmeta (sb : Superblock) : Nat :=
  sb.size - sb.nblocks

/-- A data block. -/
def IsData (sb : Superblock) (b : Nat) : Prop :=
  sb.nmeta ≤ b ∧ b < sb.size

/-- The areas lie one after the other, as `mkfs` lays them out, and block
numbers fit an `int`. -/
structure Layout (sb : Superblock) : Prop where
  boot : 1 < sb.inodestart
  inodes : sb.inodestart + sb.ninodes / ipb + 1 ≤ sb.bmapstart
  bitmap : sb.bmapstart + sb.size / bpb + 1 ≤ sb.nmeta
  bounded : sb.size < 2 ^ 31

end Superblock

/-- `struct dinode`, and the fields of `struct inode` copied from it. -/
structure Dinode where
  type : UInt16
  major : UInt16
  minor : UInt16
  nlink : UInt16
  size : UInt32
  addrs : Fin (ndirect + 1) → UInt32

namespace Dinode

def setAddr (d : Dinode) (k : Fin (ndirect + 1)) (addr : UInt32) : Dinode :=
  { d with addrs := Function.update d.addrs k addr }

/-- The dinode after `memset(dip, 0, sizeof(*dip))`. -/
def zero : Dinode :=
  ⟨0, 0, 0, 0, 0, fun _ => 0⟩

end Dinode

/-- The dinode in a slot of an inode block. -/
def getDinode (block : Block) (slot : Nat) : Dinode where
  type := UInt16.ofNat (getHalf block (64 * slot))
  major := UInt16.ofNat (getHalf block (64 * slot + 2))
  minor := UInt16.ofNat (getHalf block (64 * slot + 4))
  nlink := UInt16.ofNat (getHalf block (64 * slot + 6))
  size := UInt32.ofNat (getWord block (64 * slot + 8))
  addrs := fun k => UInt32.ofNat (getWord block (64 * slot + 12 + 4 * k.val))

/-- The `memmove` of `addrs` in `iupdate`. -/
def storeAddrs (block : Block) (offset : Nat) (addrs : Fin (ndirect + 1) → UInt32)
    (ks : List (Fin (ndirect + 1))) : Block :=
  ks.foldl (fun block k => setWord block (offset + 4 * k.val) (addrs k).toNat) block

/-- Store a dinode in a slot of an inode block. -/
def setDinode (block : Block) (slot : Nat) (d : Dinode) : Block :=
  let block := setHalf block (64 * slot) d.type.toNat
  let block := setHalf block (64 * slot + 2) d.major.toNat
  let block := setHalf block (64 * slot + 4) d.minor.toNat
  let block := setHalf block (64 * slot + 6) d.nlink.toNat
  let block := setWord block (64 * slot + 8) d.size.toNat
  storeAddrs block (64 * slot + 12) d.addrs (List.finRange (ndirect + 1))

/-- The disk, the global `sb` and the inode cache. -/
structure FsState where
  sb : Superblock
  disk : Disk
  ref : Nat → Nat
  valid : Nat → Bool
  inode : Nat → Dinode

namespace FsState

/-- The bitmap bit of a block. -/
def bit (s : FsState) (b : Nat) : Bool :=
  getBit (s.disk (s.sb.bblock b)) (b % bpb)

/-- The inode on the disk. -/
def dinode (s : FsState) (i : Nat) : Dinode :=
  getDinode (s.disk (s.sb.iblock i)) (i % ipb)

/-- `bread`, a change to the buffer, `log_write` and `brelse`. -/
def setBlock (s : FsState) (b : Nat) (block : Block) : FsState :=
  { s with disk := Function.update s.disk b block }

def setInode (s : FsState) (i : Nat) (d : Dinode) : FsState :=
  { s with inode := Function.update s.inode i d }

def setRef (s : FsState) (i count : Nat) : FsState :=
  { s with ref := Function.update s.ref i count }

def setValid (s : FsState) (i : Nat) (valid : Bool) : FsState :=
  { s with valid := Function.update s.valid i valid }

/-- Store a dinode on the disk. -/
def setDinode (s : FsState) (i : Nat) (d : Dinode) : FsState :=
  s.setBlock (s.sb.iblock i)
    (Blocks.setDinode (s.disk (s.sb.iblock i)) (i % ipb) d)

/-- `bp->data[bi/8] |= m` -/
def mark (s : FsState) (b : Nat) : FsState :=
  s.setBlock (s.sb.bblock b) (markBit (s.disk (s.sb.bblock b)) (b % bpb))

/-- `bp->data[bi/8] &= ~m` -/
def clear (s : FsState) (b : Nat) : FsState :=
  s.setBlock (s.sb.bblock b) (clearBit (s.disk (s.sb.bblock b)) (b % bpb))

end FsState

/-- The code runs on the state and may panic. -/
abbrev Fs := StateT FsState (Except FsPanic)

/-- `bzero` -/
def bzero (b : Nat) : Fs Unit :=
  modify fun s => s.setBlock b fun _ => 0

/-- `balloc`; its two loops look at the blocks in order. -/
def balloc : Fs Nat := do
  let s ← get
  match (List.range s.sb.size).find? fun b => !s.bit b with
  | some b =>
      set (s.mark b)
      bzero b
      return b
  | none => throw .outOfBlocks

/-- `bfree` -/
def bfree (b : Nat) : Fs Unit := do
  modify fun s => { s with sb := readsb s.disk }
  let s ← get
  if s.bit b then set (s.clear b) else throw .freeingFreeBlock

/-- `iupdate` -/
def iupdate (i : Nat) : Fs Unit :=
  modify fun s => s.setDinode i (s.inode i)

/-- `if((addr = ip->addrs[k]) == 0) ip->addrs[k] = addr = balloc(ip->dev);` -/
def bmapAddr (i : Nat) (k : Fin (ndirect + 1)) : Fs Nat := do
  let s ← get
  if (s.inode i).addrs k = 0 then
    let b ← balloc
    modify fun s => s.setInode i ((s.inode i).setAddr k (UInt32.ofNat b))
    return b
  else return ((s.inode i).addrs k).toNat

/-- The part of `bmap` after the indirect block is loaded. -/
def bmapIndirect (addr j : Nat) : Fs Nat := do
  let s ← get
  let a := getWord (s.disk addr) (4 * j)
  if a = 0 then
    let b ← balloc
    modify fun s => s.setBlock addr (setWord (s.disk addr) (4 * j) b)
    return b
  else return a

/-- `bmap` -/
def bmap (i bn : Nat) : Fs Nat :=
  if direct : bn < ndirect then bmapAddr i ⟨bn, Nat.lt_succ_of_lt direct⟩
  else if bn - ndirect < nindirect then do
    let addr ← bmapAddr i (Fin.last ndirect)
    bmapIndirect addr (bn - ndirect)
  else throw .outOfRange

/-- The first loop of `itrunc`. -/
def freeAddrs (i : Nat) : List (Fin (ndirect + 1)) → Fs Unit
  | [] => return
  | k :: ks => do
      let s ← get
      if (s.inode i).addrs k ≠ 0 then
        bfree ((s.inode i).addrs k).toNat
        modify fun s => s.setInode i ((s.inode i).setAddr k 0)
      freeAddrs i ks

/-- The second loop of `itrunc`. -/
def freeIndirect (addr : Nat) : List Nat → Fs Unit
  | [] => return
  | j :: js => do
      let s ← get
      if getWord (s.disk addr) (4 * j) ≠ 0 then
        bfree (getWord (s.disk addr) (4 * j))
      freeIndirect addr js

/-- `itrunc` -/
def itrunc (i : Nat) : Fs Unit := do
  freeAddrs i ((List.finRange ndirect).map Fin.castSucc)
  let s ← get
  let addr := (s.inode i).addrs (Fin.last ndirect)
  if addr ≠ 0 then
    freeIndirect addr.toNat (List.range nindirect)
    bfree addr.toNat
    modify fun s => s.setInode i ((s.inode i).setAddr (Fin.last ndirect) 0)
  modify fun s => s.setInode i { s.inode i with size := 0 }
  iupdate i

/-- The loop of `readi`: the bytes it copies. -/
def readBytes (i : Nat) : Nat → Nat → Nat → Fs (List UInt8)
  | 0, _, _ => return []
  | fuel + 1, off, left =>
      if left = 0 then return []
      else do
        let b ← bmap i (off / bsize)
        let s ← get
        let m := min left (bsize - off % bsize)
        let bytes := (List.range m).map fun k =>
          UInt8.ofNat (getByte (s.disk b) (off % bsize + k))
        let rest ← readBytes i fuel (off + m) (left - m)
        return bytes ++ rest

/-- `memmove` of the first `m` bytes of the source into a block. -/
def copyInto (block : Block) (offset m : Nat) (src : Nat → UInt8) : Block :=
  fun k =>
    if offset ≤ k.val ∧ k.val < offset + m then src (k.val - offset) else block k

/-- The loop of `writei`, which leaves `off` behind the bytes written. -/
def writeBytes (i : Nat) : Nat → (Nat → UInt8) → Nat → Nat → Fs Nat
  | 0, _, off, _ => return off
  | fuel + 1, src, off, left =>
      if left = 0 then return off
      else do
        let b ← bmap i (off / bsize)
        let m := min left (bsize - off % bsize)
        modify fun s => s.setBlock b (copyInto (s.disk b) (off % bsize) m src)
        writeBytes i fuel (fun k => src (k + m)) (off + m) (left - m)

section Devices

variable (devsw : UInt16 → UInt32 → Int)

/-- `readi`.  `devsw` is what the `read` and `write` functions of a major number
return for a count, -1 where there is none. -/
def readi (i : Nat) (off n : UInt32) : Fs (Int × List UInt8) := do
  let s ← get
  let ip := s.inode i
  if ip.type = tDev then return (devsw ip.major n, [])
  else if ip.size < off ∨ off + n < off then return (-1, [])
  else
    let n := if ip.size < off + n then ip.size - off else n
    let bytes ← readBytes i n.toNat off.toNat n.toNat
    return (n.toNat, bytes)

/-- `writei` -/
def writei (i : Nat) (src : Nat → UInt8) (off n : UInt32) : Fs Int := do
  let s ← get
  let ip := s.inode i
  if ip.type = tDev then return devsw ip.major n
  else if ip.size < off ∨ off + n < off then return -1
  else if maxfile * bsize < (off + n).toNat then return -1
  else
    let last ← writeBytes i n.toNat src off.toNat n.toNat
    if 0 < n ∧ ip.size.toNat < last then
      modify fun s => s.setInode i { s.inode i with size := UInt32.ofNat last }
      iupdate i
    return n.toNat

end Devices

/-- `iget` and `idup` -/
def iget (i : Nat) : Fs Unit :=
  modify fun s =>
    let s := if s.ref i = 0 then s.setValid i false else s
    s.setRef i (s.ref i + 1)

/-- `ialloc` -/
def ialloc (type : UInt16) : Fs Nat := do
  let s ← get
  match (List.range' 1 (s.sb.ninodes - 1)).find? fun i => (s.dinode i).type == 0 with
  | some i =>
      set (s.setDinode i { Dinode.zero with type := type })
      iget i
      return i
  | none => throw .noInodes

/-- `ilock` -/
def ilock (i : Nat) : Fs Unit := do
  let s ← get
  if s.ref i < 1 then throw .ilock
  if s.valid i = false then
    set ((s.setInode i (s.dinode i)).setValid i true)
    if (s.dinode i).type = 0 then throw .noType

/-- The part of `iput` that frees the inode. -/
def ifree (i : Nat) : Fs Unit := do
  itrunc i
  modify fun s => s.setInode i { s.inode i with type := 0 }
  iupdate i
  modify fun s => s.setValid i false

/-- `iput` -/
def iput (i : Nat) : Fs Unit := do
  let s ← get
  if s.valid i ∧ (s.inode i).nlink = 0 ∧ s.ref i = 1 then ifree i
  modify fun s => s.setRef i (s.ref i - 1)

/-- The operations: `iget` and `ilock` as a path is followed or a file opened,
`readi` and `writei` by `fileread`, `filewrite`, `dirlookup`, `dirlink` and
`sys_unlink`, `iupdate` of the fields that `create`, `sys_link` and `sys_unlink`
set, `ialloc` by `create`, and `iput`. -/
inductive Label where
  | iget (i : Nat)
  | ilock (i : Nat)
  | readi (i : Nat) (off n : UInt32)
  | writei (i : Nat) (src : Nat → UInt8) (off n : UInt32)
  | iupdate (i : Nat) (major minor nlink : UInt16)
  | ialloc (type : UInt16)
  | iput (i : Nat)

namespace FsState

/-- The number of an inode of this file system. -/
def IsInode (s : FsState) (i : Nat) : Prop :=
  0 < i ∧ i < s.sb.ninodes

/-- What the callers see to: inode numbers are those of this file system, an
inode is read and changed only with its lock, which makes it valid, and given
back only with a reference. -/
def Enabled (s : FsState) : Label → Prop
  | .iget i => s.IsInode i
  | .ilock i => 0 < s.ref i
  | .readi i _ _ => 0 < s.ref i ∧ s.valid i = true
  | .writei i _ _ _ => 0 < s.ref i ∧ s.valid i = true
  | .iupdate i _ _ _ => 0 < s.ref i ∧ s.valid i = true
  | .ialloc type => type = tDir ∨ type = tFile ∨ type = tDev
  | .iput i => 0 < s.ref i

instance (s : FsState) : (label : Label) → Decidable (s.Enabled label)
  | .iget _ => inferInstanceAs (Decidable (_ ∧ _))
  | .ilock _ => inferInstanceAs (Decidable (_ < _))
  | .readi _ _ _ => inferInstanceAs (Decidable (_ ∧ _))
  | .writei _ _ _ _ => inferInstanceAs (Decidable (_ ∧ _))
  | .iupdate _ _ _ _ => inferInstanceAs (Decidable (_ ∧ _))
  | .ialloc _ => inferInstanceAs (Decidable (_ ∨ _ ∨ _))
  | .iput _ => inferInstanceAs (Decidable (_ < _))

end FsState

/-- The code of an operation. -/
def perform (devsw : UInt16 → UInt32 → Int) : Label → Fs Unit
  | .iget i => iget i
  | .ilock i => ilock i
  | .readi i off n => do
      let _ ← readi devsw i off n
  | .writei i src off n => do
      let _ ← writei devsw i src off n
  | .iupdate i major minor nlink => do
      modify fun s => s.setInode i
        { s.inode i with major := major, minor := minor, nlink := nlink }
      iupdate i
  | .ialloc type => do
      let _ ← ialloc type
  | .iput i => iput i

/-- One operation; there is no next state where it panics. -/
def step (devsw : UInt16 → UInt32 → Int) (s : FsState) (label : Label) :
    Option FsState :=
  if s.Enabled label then
    match perform devsw label s with
    | .ok (_, s') => some s'
    | .error _ => none
  else none

/-- A place where an inode stores a block number: an element of `addrs` or of
its indirect block. -/
inductive Spot where
  | addr (k : Fin (ndirect + 1))
  | indirect (j : Fin nindirect)
  deriving DecidableEq

/-- The block number stored at a place, or zero. -/
def entry (disk : Disk) (d : Dinode) : Spot → Nat
  | .addr k => (d.addrs k).toNat
  | .indirect j =>
      if d.addrs (Fin.last ndirect) = 0 then 0
      else getWord (disk (d.addrs (Fin.last ndirect)).toNat) (4 * j.val)

/-- The place that has the address of the block with this index in a file. -/
def spotOf (bn : Nat) : Option Spot :=
  if direct : bn < ndirect then some (.addr ⟨bn, Nat.lt_succ_of_lt direct⟩)
  else if indirect : bn - ndirect < nindirect then some (.indirect ⟨_, indirect⟩)
  else none

/-- The block numbers stored in allocated inodes. -/
def held (disk : Disk) (inode : Nat → Dinode) (ninodes : Nat) (place : Nat × Spot) :
    Option Nat :=
  if 0 < place.1 ∧ place.1 < ninodes ∧ (inode place.1).type ≠ 0 ∧
      entry disk (inode place.1) place.2 ≠ 0 then
    some (entry disk (inode place.1) place.2)
  else none

/-- Every block below the size of the file has an address. -/
def NoHole (disk : Disk) (d : Dinode) : Prop :=
  ∀ bn, bn * bsize < d.size.toNat →
    ∃ spot, spotOf bn = some spot ∧ entry disk d spot ≠ 0

namespace FsState

/-- The block number stored at a place on the disk. -/
def stored (s : FsState) : Nat × Spot → Option Nat :=
  held s.disk s.dinode s.sb.ninodes

end FsState

/-- Block accounting on the disk. -/
structure Accounting (s : FsState) : Prop where
  marked : ∀ place b, s.stored place = some b → s.sb.IsData b ∧ s.bit b = true
  apart : ∀ first second b, s.stored first = some b → s.stored second = some b →
    first = second
  counted : ∀ b, s.sb.IsData b → s.bit b = true → ∃! place, s.stored place = some b
  noHole : ∀ i, s.IsInode i → (s.dinode i).type ≠ 0 → NoHole s.disk (s.dinode i)

/-- The file system when it comes into use: `sb` is read from an image that
`mkfs` has laid out, with the blocks in front of the data blocks marked as used,
whose blocks are accounted for, and no inode is in the cache. -/
structure Start (s : FsState) : Prop where
  super : readsb s.disk = s.sb
  layout : s.sb.Layout
  reserved : ∀ b, b < s.sb.nmeta → s.bit b = true
  accounting : Accounting s
  ref : ∀ i, s.ref i = 0
  valid : ∀ i, s.valid i = false

end Xv6.Blocks
