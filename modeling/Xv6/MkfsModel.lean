import Xv6.InodeBlocks

/-!
# The image that mkfs writes

`mkfs.c`.  The image is the file `fs.img`, as sectors: a sector behind its end
cannot be read, and one that is written there makes the file longer, with zeroes
in between.  The host is little-endian, like the target, so that `xshort` and
`xint` change nothing.  The files exist, the image can be created and the calls
of `write` succeed; in any other run `mkfs` ends with status 1.

`argc` is an `int` and a block is read as soon as its number is taken, so neither
`freeinode` nor `freeblock` wraps.
-/

namespace Xv6.Mkfs

open ByteFields Blocks

/-- `FSSIZE` -/
abbrev fssize : Nat := 1000

/-- `NINODES` -/
abbrev ninodes : Nat := 200

abbrev nbitmap : Nat := fssize / (bsize * 8) + 1

abbrev ninodeblocks : Nat := ninodes / ipb + 1

/-- `LOGSIZE` -/
abbrev nlog : Nat := 30

abbrev nmeta : Nat := 2 + nlog + ninodeblocks + nbitmap

abbrev nblocks : Nat := fssize - nmeta

/-- `sb` -/
def superblock : Superblock where
  size := fssize
  nblocks := nblocks
  ninodes := ninodes
  nlog := nlog
  logstart := 2
  inodestart := 2 + nlog
  bmapstart := 2 + nlog + ninodeblocks

/-- How `mkfs` ends early. -/
inductive Exit where
  /-- `exit(1)` -/
  | failure
  /-- A failed `assert`. -/
  | abort
  deriving DecidableEq

/-- The image and the counters. -/
structure State where
  image : Disk
  length : Nat
  freeinode : Nat
  freeblock : Nat

abbrev Run := StateT State (Except Exit)

/-- The zero block, `zeroes`. -/
def zeroes : Block :=
  fun _ => 0

/-- The sector at the offset `sec * BSIZE`, which is a `uint`. -/
def sector (sec : Nat) : Nat :=
  sec * bsize % 2 ^ 32 / bsize

def wsect (sec : Nat) (buf : Block) : Run Unit :=
  modify fun s =>
    { s with
      image := Function.update s.image (sector sec) buf
      length := max s.length (sector sec + 1) }

def rsect (sec : Nat) : Run Block := do
  let s ← get
  if sector sec < s.length then return s.image (sector sec) else throw .failure

/-- `assert` -/
def assert (condition : Prop) [Decidable condition] : Run Unit :=
  if condition then return else throw .abort

def winode (inum : Nat) (ip : Dinode) : Run Unit := do
  let buf ← rsect (superblock.iblock inum)
  wsect (superblock.iblock inum) (setDinode buf (inum % ipb) ip)

def rinode (inum : Nat) : Run Dinode := do
  let buf ← rsect (superblock.iblock inum)
  return getDinode buf (inum % ipb)

def ialloc (type : UInt16) : Run Nat := do
  let inum := (← get).freeinode
  modify fun s => { s with freeinode := inum + 1 }
  winode inum { Dinode.zero with type := type, nlink := 1 }
  return inum

def balloc (used : Nat) : Run Unit := do
  assert (used < bsize * 8)
  wsect superblock.bmapstart ((List.range used).foldl markBit zeroes)

/-- `freeblock++` -/
def nextBlock : Run Nat := do
  let b := (← get).freeblock
  modify fun s => { s with freeblock := b + 1 }
  return b

/-- `if(xint(din.addrs[k]) == 0) din.addrs[k] = xint(freeblock++);` -/
def fillAddr (din : Dinode) (k : Fin (ndirect + 1)) : Run Dinode :=
  if din.addrs k = 0 then do
    let b ← nextBlock
    return din.setAddr k (UInt32.ofNat b)
  else return din

/-- The same for `indirect[j]`, with the indirect block at `addr`. -/
def fillIndirect (addr j : Nat) : Run Nat := do
  let indirect ← rsect addr
  if getWord indirect (4 * j) = 0 then
    let b ← nextBlock
    let indirect := setWord indirect (4 * j) b
    wsect addr indirect
    return getWord indirect (4 * j)
  else return getWord indirect (4 * j)

/-- The block `x` that `iappend` writes to, with its number stored in the inode. -/
def fill (din : Dinode) (fbn : Nat) : Run (Dinode × Nat) :=
  if direct : fbn < ndirect then do
    let din ← fillAddr din ⟨fbn, Nat.lt_succ_of_lt direct⟩
    return (din, (din.addrs ⟨fbn, Nat.lt_succ_of_lt direct⟩).toNat)
  else do
    let din ← fillAddr din (Fin.last ndirect)
    let x ← fillIndirect (din.addrs (Fin.last ndirect)).toNat (fbn - ndirect)
    return (din, x)

/-- The loop of `iappend`, with the bytes that are left. -/
def appendBytes : Nat → Dinode → Nat → List UInt8 → Run (Dinode × Nat)
  | 0, din, off, _ => return (din, off)
  | fuel + 1, din, off, p =>
      if p.length = 0 then return (din, off)
      else do
        let fbn := off / bsize
        assert (fbn < maxfile)
        let (din, x) ← fill din fbn
        let n1 := min p.length ((fbn + 1) * bsize - off)
        let buf ← rsect x
        wsect x (copyInto buf (off - fbn * bsize) n1 fun k => p.getD k 0)
        appendBytes fuel din (off + n1) (p.drop n1)

def iappend (inum : Nat) (p : List UInt8) : Run Unit := do
  let din ← rinode inum
  let (din, off) ← appendBytes p.length din din.size.toNat p
  winode inum { din with size := UInt32.ofNat off }

/-- The bytes of a `struct dirent`, with the name from `strncpy`. -/
def dirent (inum : Nat) (name : List UInt8) : List UInt8 :=
  [UInt8.ofNat inum, UInt8.ofNat (inum / 256)] ++
    (List.range dirsiz).map fun k => name.getD k 0

/-- A file of the host: its name, and what the calls of `read` return until one
returns nothing. -/
structure HostFile where
  name : List UInt8
  reads : List (List UInt8)
  terminated : 0 ∉ name
  chunks : ∀ chunk ∈ reads, 0 < chunk.length ∧ chunk.length ≤ bsize

namespace HostFile

def contents (file : HostFile) : List UInt8 :=
  file.reads.flatten

/-- The name without a leading `_`. -/
def plainName (file : HostFile) : List UInt8 :=
  if file.name.head? = some '_'.toUInt8 then file.name.tail else file.name

/-- The name in the directory entry. -/
def entryName (file : HostFile) : List UInt8 :=
  file.plainName.take dirsiz

end HostFile

/-- The loop of `main` that copies a file. -/
def copyFile (inum : Nat) : List (List UInt8) → Run Unit
  | [] => return
  | chunk :: rest => do
      iappend inum chunk
      copyFile inum rest

/-- The loop of `main` over the files. -/
def addFiles : List HostFile → Run Unit
  | [] => return
  | file :: rest => do
      assert ('/'.toUInt8 ∉ file.name)
      let inum ← ialloc tFile
      iappend rootino (dirent inum file.plainName)
      copyFile inum file.reads
      addFiles rest

/-- The loop of `main` that makes the image. -/
def clearSectors : Nat → Run Unit
  | 0 => return
  | n + 1 => do
      clearSectors n
      wsect n zeroes

theorem clearSectors_zero : clearSectors 0 = pure () :=
  rfl

theorem clearSectors_succ (n : Nat) :
    clearSectors (n + 1) = clearSectors n >>= fun _ => wsect n zeroes :=
  rfl

-- The elaborator would otherwise unroll the loop over all sectors.
attribute [irreducible] clearSectors

/-- The block of the superblock. -/
def superSector : Block :=
  let buf := setWord zeroes 0 superblock.size
  let buf := setWord buf 4 superblock.nblocks
  let buf := setWord buf 8 superblock.ninodes
  let buf := setWord buf 12 superblock.nlog
  let buf := setWord buf 16 superblock.logstart
  let buf := setWord buf 20 superblock.inodestart
  setWord buf 24 superblock.bmapstart

/-- The end of `main`, from the fix of the size of the root directory. -/
def finish : Run Unit := do
  let din ← rinode rootino
  let off := (din.size.toNat / bsize + 1) * bsize
  winode rootino { din with size := UInt32.ofNat off }
  balloc (← get).freeblock

def main (files : List HostFile) : Run Unit := do
  clearSectors fssize
  wsect 1 superSector
  let root ← ialloc tDir
  assert (root = rootino)
  iappend root (dirent root ['.'.toUInt8])
  iappend root (dirent root ['.'.toUInt8, '.'.toUInt8])
  addFiles files
  finish

/-- The empty image, before `main`. -/
def start : State where
  image := fun _ => zeroes
  length := 0
  freeinode := 1
  freeblock := nmeta

/-- What is left when `mkfs` exits with status 0. -/
def mkfs (files : List HostFile) : Except Exit State :=
  (main files start).map (·.2)

/-- The kernel with this image, when nothing has been read from it but the
superblock. -/
def mount (image : Disk) : FsState where
  sb := readsb image
  disk := image
  ref := fun _ => 0
  valid := fun _ => false
  inode := fun _ => Dinode.zero

/-- The image of a finished run is a file system as the kernel expects it. -/
structure Consistent (s : State) : Prop where
  super : (mount s.image).sb = superblock
  inodes : ∀ i, 0 < i → i < s.freeinode → i < (mount s.image).sb.ninodes
  data : ∀ place b, (mount s.image).stored place = some b → (mount s.image).sb.IsData b
  apart : ∀ first second b, (mount s.image).stored first = some b →
    (mount s.image).stored second = some b → first = second
  bitmap : ∀ b, b < nbitmap * bpb →
    ((mount s.image).bit b = true ↔
      b < (mount s.image).sb.nmeta ∨ ∃ place, (mount s.image).stored place = some b)
  noHole : ∀ i, 0 < i → i < s.freeinode → NoHole s.image ((mount s.image).dinode i)

end Xv6.Mkfs
