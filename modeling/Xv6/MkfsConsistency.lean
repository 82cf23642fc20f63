import Xv6.BlockOperations
import Xv6.MkfsRun

/-!
# The finished image

At the end of a run of `mkfs` the size of the root directory is rounded up and
the bitmap is written.  The image is consistent exactly if there are inode
numbers for all files and the entries of the root directory do not fill its last
block: rounding adds a block that is not there when they do.
-/

namespace Xv6.Mkfs

open ByteFields Blocks BlockOwners StateTriples

/-- The bytes of the inodes at the end of a run. -/
def finalBytes (files : List HostFile) : Nat → List UInt8 :=
  added (Function.update (fun _ => []) rootino
    (dirent rootino ['.'.toUInt8] ++ dirent rootino ['.'.toUInt8, '.'.toUInt8])) 2 files

/-- The size that `main` gives to the root directory. -/
def roundedSize (length : Nat) : Nat :=
  (length / bsize + 1) * bsize

/-- The image at the end of a run. -/
structure Finished (s : State) (bytes : Nat → List UInt8) : Prop where
  super : s.image 1 = superSector
  stored : Stored s.image (dinode s.image) s.freeblock (fun i => blocksFor (bytes i).length) bytes
  files : ∀ i, rootino < i → i < s.freeinode → (bytes i).length ≤ maxfile * bsize ∧
    ∃ addrs, dinode s.image i = ⟨tFile, 0, 0, 1, UInt32.ofNat (bytes i).length, addrs⟩
  root : ∃ addrs, dinode s.image rootino =
    ⟨tDir, 0, 0, 1, UInt32.ofNat (roundedSize (bytes rootino).length), addrs⟩
  unused : ∀ i, s.freeinode ≤ i → i < ninodes → dinode s.image i = Dinode.zero
  bits : ∀ b, b < bpb → getBit (s.image superblock.bmapstart) b = decide (b < s.freeblock)
  inodes : s.freeinode ≤ ninodes
  bounded : s.freeblock ≤ fssize

section Finish

variable {s : State} {bytes : Nat → List UInt8} {allowed : Exit → Prop}

theorem getBit_foldl_markBit {n : Nat} (small : n ≤ bpb) (k : Nat) :
    getBit ((List.range n).foldl markBit zeroes) k = decide (k < n) := by
  induction n with
  | zero =>
      rw [List.range_zero, List.foldl_nil]
      simp [getBit, getByte, zeroes]
  | succ n ih =>
      have small : n + 1 ≤ 4096 := small
      have inside : n / 8 < bsize := by
        change n / 8 < 512
        omega
      rw [List.range_succ, List.foldl_append, List.foldl_cons, List.foldl_nil,
        getBit_markBit _ inside, ih (Nat.le_of_succ_le small)]
      by_cases same : k = n
      · simp [same]
      · by_cases less : k < n
        · simp [less, Nat.lt_succ_of_lt less]
        · have more : ¬ k < n + 1 := by omega
          simp [same, less, more]

theorem finish_spec (holds : Holds s bytes) (low : rootino < s.freeinode) :
    wp allowed finish (fun _ t => Finished t bytes ∧ t.freeinode = s.freeinode) s := by
  have inTable : rootino < ninodes := by decide
  obtain ⟨short, addrs, isDin⟩ := holds.used rootino (by decide) low
  have size : (dinode s.image rootino).size.toNat = (bytes rootino).length := by
    rw [isDin]
    exact toNat_size short
  have few : s.freeblock < bsize * 8 := Nat.lt_of_le_of_lt holds.bounded (by decide)
  unfold finish
  rw [wp_bind, wp_rinode holds.length inTable, size]
  dsimp only
  rw [wp_bind, wp_winode holds.length inTable, wp_bind, wp_get, balloc, wp_bind, wp_assert]
  refine ⟨fun _ => ?_, fun tooMany => absurd few tooMany⟩
  rw [wp_wsect (by exact holds.length) (by decide)]
  refine ⟨?_, rfl⟩
  have table := dinode_write s.image rootino
    { dinode s.image rootino with
      size := UInt32.ofNat (((bytes rootino).length / bsize + 1) * bsize) }
  generalize written : Function.update s.image (superblock.iblock rootino)
    (setDinode (s.image (superblock.iblock rootino)) (rootino % ipb)
      { dinode s.image rootino with
        size := UInt32.ofNat (((bytes rootino).length / bsize + 1) * bsize) }) = image at table
  have same (b : Nat) (differ : b ≠ superblock.iblock rootino) : image b = s.image b := by
    rw [← written]
    exact Function.update_of_ne differ ..
  generalize bitmap : (List.range s.freeblock).foldl markBit zeroes = bits
  have inodes {j : Nat} (inside : j < ninodes) :
      dinode (Function.update image superblock.bmapstart bits) j =
        Function.update (dinode s.image) rootino
          { dinode s.image rootino with
            size := UInt32.ofNat (((bytes rootino).length / bsize + 1) * bsize) } j := by
    rw [← table]
    unfold dinode
    rw [Function.update_of_ne (iblock_bounds inside).2.ne]
  have goal : Finished ⟨Function.update image superblock.bmapstart bits, s.length, s.freeinode,
      s.freeblock⟩ bytes := by
    refine ⟨?_, ?_, ?_, ?_, ?_, ?_, holds.inodes, holds.bounded⟩
    · dsimp only
      rw [Function.update_of_ne (by decide), same 1 (by decide)]
      exact holds.super
    · refine holds.stored.congr ?_ ?_ ?_
      · intro j positive range
        dsimp only
        rw [inodes range]
        by_cases equal : j = rootino
        · subst equal
          rw [Function.update_self]
        · rw [Function.update_of_ne equal]
      · intro j positive range some'
        dsimp only
        rw [inodes range]
        by_cases equal : j = rootino
        · subst equal
          rw [Function.update_self]
        · rw [Function.update_of_ne equal]
      · intro b data
        have data : 59 ≤ b := data
        have apart : b ≠ superblock.bmapstart := by
          change b ≠ 58
          omega
        have apart' : b ≠ superblock.iblock rootino := by
          change b ≠ 32
          omega
        dsimp only
        rw [Function.update_of_ne apart, same b apart']
    · intro j positive range
      dsimp only at range ⊢
      have notRoot : j ≠ rootino := positive.ne'
      rw [inodes (range.trans_le holds.inodes), Function.update_of_ne notRoot]
      have used := holds.used j (Nat.zero_lt_of_lt positive) range
      rw [typeOf, if_neg notRoot] at used
      exact used
    · dsimp only
      rw [inodes inTable, Function.update_self, isDin]
      exact ⟨_, rfl⟩
    · intro j later range
      dsimp only at later ⊢
      rw [inodes range, Function.update_of_ne (by omega)]
      exact (holds.unused j later).2 range
    · intro b inside
      dsimp only
      rw [Function.update_self, ← bitmap]
      exact getBit_foldl_markBit (Nat.le_of_lt few) b
  rw [← written, ← bitmap] at goal
  exact goal

end Finish

section Main

variable {files : List HostFile} {allowed : Exit → Prop}

theorem clearSectors_eq {n : Nat} (small : n ≤ fssize) :
    clearSectors n start = .ok ((), { start with length := n }) := by
  induction n with
  | zero =>
      rw [clearSectors_zero]
      rfl
  | succ n ih =>
      have before : clearSectors n start = .ok ((), { start with length := n }) :=
        ih (Nat.le_of_succ_le small)
      rw [clearSectors_succ]
      change ((clearSectors n start).bind fun pair => wsect n zeroes pair.2) = _
      rw [before]
      have blank : Function.update (fun _ => zeroes : Disk) n zeroes = fun _ => zeroes :=
        Function.update_eq_self n _
      have length : max n (n + 1) = n + 1 := Nat.max_eq_right (Nat.le_succ n)
      change Except.ok ((), State.mk (Function.update (fun _ => zeroes : Disk) (sector n) zeroes)
        (max n (sector n + 1)) 1 nmeta) = _
      rw [sector_of_lt small, blank, length]
      rfl

/-- The image before the first inode is made. -/
def emptyImage : State where
  image := Function.update (fun _ => zeroes) 1 superSector
  length := fssize
  freeinode := 1
  freeblock := nmeta

theorem getDinode_zeroes (slot : Nat) : getDinode zeroes slot = Dinode.zero := by
  have half (offset : Nat) : getHalf zeroes offset = 0 := by
    simp [getHalf, getByte, zeroes]
  have word (offset : Nat) : getWord zeroes offset = 0 := getWord_zero offset
  unfold getDinode Dinode.zero
  simp only [half, word]
  rfl

theorem dinode_emptyImage {i : Nat} (inside : i < ninodes) :
    dinode emptyImage.image i = Dinode.zero := by
  have apart : superblock.iblock i ≠ 1 := (iblock_bounds inside).1.ne'
  unfold dinode emptyImage
  dsimp only
  rw [Function.update_of_ne apart]
  exact getDinode_zeroes _

theorem entry_zero (disk : Disk) (spot : Spot) : Blocks.entry disk Dinode.zero spot = 0 := by
  cases spot with
  | addr k => rfl
  | indirect k => rfl

theorem holds_emptyImage : Holds emptyImage fun _ => [] := by
  have none (place : Nat × Spot) :
      held emptyImage.image (dinode emptyImage.image) ninodes place = none := by
    obtain ⟨i, spot⟩ := place
    rw [Option.eq_none_iff_forall_ne_some]
    intro b stored
    obtain ⟨⟨⟨-, inside⟩, type⟩, -⟩ := held_eq_some.mp stored
    rw [dinode_emptyImage inside] at type
    exact type rfl
  refine ⟨rfl, ?_, ?_, ?_, ?_, by decide, by decide, by decide⟩
  · exact Function.update_self (1 : Nat) superSector fun _ => zeroes
  · refine ⟨⟨?_, ?_⟩, ?_, ?_, ?_, ?_, ?_⟩
    · intro first second b stored
      rw [none first] at stored
      cases stored
    · intro b
      refine ⟨fun range => absurd range.2 (Nat.not_lt_of_le range.1), ?_⟩
      rintro ⟨place, stored⟩
      rw [none place] at stored
      cases stored
    · intro i low inside spot
      rw [dinode_emptyImage inside, entry_zero]
      exact ⟨fun differ => absurd rfl differ, fun less => absurd less (Nat.not_lt_zero _)⟩
    · intro i low inside some'
      exact absurd some' (Nat.lt_irrefl _)
    · intro i k byte low inside here
      cases here
    · intro b later
      have later : 59 ≤ b := later
      have apart : b ≠ 1 := by omega
      exact Function.update_of_ne apart superSector fun _ => zeroes
    · rw [List.length_nil, blocksFor_zero, Finset.sum_const_zero]
      rfl
  · intro i low inside
    have inside : i < 1 := inside
    omega
  · intro i later
    exact ⟨rfl, dinode_emptyImage⟩

theorem main_spec (room : files.length + 2 ≤ ninodes) :
    wp (fun _ => ¬ (Named files ∧ Fits (finalBytes files))) (main files)
      (fun _ t => Finished t (finalBytes files) ∧ Named files) start := by
  unfold main
  rw [wp_bind]
  rw [wp, clearSectors_eq (Nat.le_refl fssize)]
  dsimp only
  rw [wp_bind, wp_wsect (by rfl) (by decide), wp_bind]
  change wp _ (ialloc (typeOf emptyImage.freeinode)) _ emptyImage
  refine wp_mono (ialloc_spec holds_emptyImage (by decide)) ?_
  rintro root s ⟨isRoot, count, holds⟩
  obtain rfl : root = rootino := isRoot
  have count : s.freeinode = 2 := count
  rw [wp_bind, wp_assert]
  refine ⟨fun _ => ?_, fun wrong => absurd rfl wrong⟩
  have final : added (Function.update (Function.update (fun _ => []) rootino
      (dirent rootino ['.'.toUInt8])) rootino
        (dirent rootino ['.'.toUInt8] ++ dirent rootino ['.'.toUInt8, '.'.toUInt8])) 2 files =
      finalBytes files := by
    rw [Function.update_idem]
    rfl
  have less (i : Nat) : (Function.update (Function.update (fun _ => []) rootino
      (dirent rootino ['.'.toUInt8])) rootino
        (dirent rootino ['.'.toUInt8] ++ dirent rootino ['.'.toUInt8, '.'.toUInt8]) i).length ≤
      (finalBytes files i).length := by
    rw [← final]
    refine length_le_added (by decide) (fun j later => ?_) i
    have notRoot : j ≠ rootino := (Nat.lt_of_lt_of_le (by decide) later).ne'
    rw [Function.update_of_ne notRoot, Function.update_of_ne notRoot]
  rw [wp_bind]
  refine wp_mono (wp_allow (iappend_spec (p := dirent rootino ['.'.toUInt8]) holds (by decide)
    (by rw [count]; decide)) fun _ full good => full ?_) ?_
  · refine good.2.mono fun i => Nat.le_trans ?_ (less i)
    by_cases root : i = rootino
    · subst root
      rw [Function.update_self, Function.update_self, List.nil_append, List.length_append]
      exact Nat.le_add_right _ _
    · rw [Function.update_of_ne root, Function.update_of_ne root, Function.update_of_ne root]
  · rintro _ t ⟨one, same⟩
    rw [List.nil_append] at one
    rw [wp_bind]
    have second := iappend_spec (p := dirent rootino ['.'.toUInt8, '.'.toUInt8]) one (by decide)
      (by rw [same, count]; decide : rootino < t.freeinode)
    rw [Function.update_self] at second
    refine wp_mono (wp_allow second fun _ full good => full (good.2.mono less)) ?_
    rintro _ u ⟨two, same'⟩
    have number : u.freeinode = 2 := same'.trans (same.trans count)
    rw [wp_bind]
    have more : wp _ (addFiles files) _ u := addFiles_spec two (by rw [number]; decide)
      (by rw [number]; omega)
    rw [number, final] at more
    refine wp_mono more ?_
    rintro _ v ⟨done, total, named⟩
    have low : rootino < v.freeinode := by
      rw [total]
      exact Nat.lt_of_lt_of_le (by decide) (Nat.le_add_right 2 _)
    refine wp_mono (finish_spec done low) ?_
    rintro _ w ⟨finished, -⟩
    exact ⟨finished, named⟩

end Main

section Counting

variable {α β : Type} {program : Run α} {next : α → Run β} {count more : Nat}

/-- However it ends, the program takes this many inode numbers. -/
def Takes (count : Nat) (program : Run α) : Prop :=
  ∀ s, wp (fun _ => True) program (fun _ t => t.freeinode = s.freeinode + count) s

theorem takes_pure (value : α) : Takes 0 (pure value : Run α) :=
  fun _ => rfl

theorem Takes.bind (first : Takes count program) (second : ∀ value, Takes more (next value)) :
    Takes (count + more) (program >>= next) := by
  intro s
  rw [wp_bind]
  refine wp_mono (first s) fun value t taken => ?_
  refine wp_mono (second value t) fun _ u later => ?_
  rw [later, taken, Nat.add_assoc]

theorem takes_assert (condition : Prop) [Decidable condition] : Takes 0 (assert condition) := by
  intro s
  rw [wp_assert]
  exact ⟨fun _ => rfl, fun _ => trivial⟩

theorem takes_wsect (sec : Nat) (buf : Block) : Takes 0 (wsect sec buf) :=
  fun _ => rfl

theorem takes_rsect (sec : Nat) : Takes 0 (rsect sec) := by
  intro s
  rw [rsect, wp_bind, wp_get]
  split
  · exact rfl
  · exact trivial

theorem takes_winode (i : Nat) (d : Dinode) : Takes 0 (winode i d) :=
  (takes_rsect _).bind fun _ => takes_wsect _ _

theorem takes_rinode (i : Nat) : Takes 0 (rinode i) :=
  (takes_rsect _).bind fun _ => takes_pure _

theorem takes_ialloc (type : UInt16) : Takes 1 (ialloc type) := by
  intro s
  unfold ialloc
  simp only [wp_bind, wp_get, wp_modify, wp_pure]
  exact wp_mono (takes_winode _ _ _) fun _ t same => same

theorem takes_nextBlock : Takes 0 nextBlock :=
  fun _ => rfl

theorem takes_fillAddr (din : Dinode) (k : Fin (ndirect + 1)) : Takes 0 (fillAddr din k) := by
  unfold fillAddr
  split
  · exact takes_nextBlock.bind fun _ => takes_pure _
  · exact takes_pure _

theorem takes_fillIndirect (addr j : Nat) : Takes 0 (fillIndirect addr j) := by
  unfold fillIndirect
  change Takes (0 + 0) _
  refine Takes.bind (takes_rsect addr) fun indirect => ?_
  split
  · exact takes_nextBlock.bind fun _ => (takes_wsect _ _).bind fun _ => takes_pure _
  · exact takes_pure _

theorem takes_fill (din : Dinode) (fbn : Nat) : Takes 0 (fill din fbn) := by
  unfold fill
  split
  · exact (takes_fillAddr din _).bind fun _ => takes_pure _
  · exact (takes_fillAddr din _).bind fun _ => (takes_fillIndirect _ _).bind fun _ => takes_pure _

theorem takes_appendBytes (fuel : Nat) (din : Dinode) (off : Nat) (p : List UInt8) :
    Takes 0 (appendBytes fuel din off p) := by
  induction fuel generalizing din off p with
  | zero => exact takes_pure _
  | succ fuel ih =>
      unfold appendBytes
      split
      · exact takes_pure _
      · exact (takes_assert _).bind fun _ => (takes_fill _ _).bind fun _ =>
          (takes_rsect _).bind fun _ => (takes_wsect _ _).bind fun _ => ih _ _ _

theorem takes_iappend (i : Nat) (p : List UInt8) : Takes 0 (iappend i p) :=
  (takes_rinode i).bind fun _ => (takes_appendBytes _ _ _ _).bind fun _ => takes_winode _ _

theorem takes_copyFile (i : Nat) (reads : List (List UInt8)) : Takes 0 (copyFile i reads) := by
  induction reads with
  | nil => exact takes_pure _
  | cons chunk rest ih => exact (takes_iappend i chunk).bind fun _ => ih

theorem takes_addFiles (files : List HostFile) : Takes files.length (addFiles files) := by
  induction files with
  | nil => exact takes_pure _
  | cons file rest ih =>
      have one := (takes_assert ('/'.toUInt8 ∉ file.name)).bind fun _ =>
        (takes_ialloc tFile).bind fun inum =>
          (takes_iappend rootino (dirent inum file.plainName)).bind fun _ =>
            (takes_copyFile inum file.reads).bind fun _ => ih
      have count : 0 + (1 + (0 + (0 + rest.length))) = (file :: rest).length := by
        rw [List.length_cons]
        omega
      rw [count] at one
      exact one

theorem takes_clearSectors (n : Nat) : Takes 0 (clearSectors n) := by
  induction n with
  | zero =>
      rw [clearSectors_zero]
      exact takes_pure _
  | succ n ih =>
      rw [clearSectors_succ]
      exact ih.bind fun _ => takes_wsect _ _

theorem takes_finish : Takes 0 finish := by
  intro s
  unfold finish
  rw [wp_bind]
  refine wp_mono (takes_rinode rootino s) fun din t same => ?_
  dsimp only
  rw [wp_bind]
  refine wp_mono (takes_winode _ _ t) fun _ u kept => ?_
  rw [wp_bind, wp_get, balloc]
  have last := (takes_assert (u.freeblock < bsize * 8)).bind fun _ =>
    takes_wsect superblock.bmapstart ((List.range u.freeblock).foldl markBit zeroes)
  refine wp_mono (last u) fun _ v equal => ?_
  omega

theorem takes_main (files : List HostFile) : Takes (files.length + 1) (main files) := by
  unfold main
  have clear := takes_clearSectors fssize
  generalize clearSectors fssize = program at clear ⊢
  have all := clear.bind fun _ => (takes_wsect 1 superSector).bind fun _ =>
    (takes_ialloc tDir).bind fun root => (takes_assert (root = rootino)).bind fun _ =>
      (takes_iappend root (dirent root ['.'.toUInt8])).bind fun _ =>
        (takes_iappend root (dirent root ['.'.toUInt8, '.'.toUInt8])).bind fun _ =>
          (takes_addFiles files).bind fun _ => takes_finish
  have count : 0 + (0 + (1 + (0 + (0 + (0 + (files.length + 0)))))) = files.length + 1 := by
    omega
  rw [count] at all
  exact all

theorem main_of_mkfs {files : List HostFile} {s : State} (done : mkfs files = .ok s) :
    main files start = .ok ((), s) := by
  unfold mkfs at done
  generalize main files start = result at done ⊢
  cases result with
  | error exit => cases done
  | ok pair =>
      cases done
      rfl

/-- The inode numbers that a run takes. -/
theorem freeinode_of_mkfs {files : List HostFile} {s : State} (done : mkfs files = .ok s) :
    s.freeinode = files.length + 2 := by
  have taken := post_of_wp (takes_main files start) (main_of_mkfs done)
  rw [taken]
  change 1 + (files.length + 1) = files.length + 2
  omega

end Counting

/-- What a run leaves if there are inode numbers for all files. -/
theorem finished_of_mkfs {files : List HostFile} {s : State} (done : mkfs files = .ok s)
    (room : files.length + 2 ≤ ninodes) : Finished s (finalBytes files) :=
  (post_of_wp (main_spec room) (main_of_mkfs done)).1

theorem named_of_mkfs {files : List HostFile} {s : State} (done : mkfs files = .ok s)
    (room : files.length + 2 ≤ ninodes) : Named files :=
  (post_of_wp (main_spec room) (main_of_mkfs done)).2

/-- `mkfs` ends with status 0 if the files fit. -/
theorem mkfs_ends {files : List HostFile} (room : files.length + 2 ≤ ninodes)
    (named : Named files) (fits : Fits (finalBytes files)) : ∃ s, mkfs files = .ok s := by
  have spec := main_spec room
  unfold mkfs
  unfold wp at spec
  generalize main files start = result at spec ⊢
  cases result with
  | error exit => exact absurd ⟨named, fits⟩ spec
  | ok pair => exact ⟨pair.2, rfl⟩

section Mounting

variable {s : State} {bytes : Nat → List UInt8}

theorem readsb_superSector {image : Disk} (super : image 1 = superSector) :
    readsb image = superblock := by
  unfold readsb
  rw [super]
  decide

theorem Finished.sb (finished : Finished s bytes) : (mount s.image).sb = superblock :=
  readsb_superSector finished.super

theorem Finished.dinode_mount (finished : Finished s bytes) (i : Nat) :
    (mount s.image).dinode i = dinode s.image i := by
  unfold FsState.dinode
  rw [finished.sb]
  rfl

theorem Finished.stored_mount (finished : Finished s bytes) (place : Nat × Spot) :
    (mount s.image).stored place = held s.image (dinode s.image) ninodes place := by
  have table : (mount s.image).dinode = dinode s.image := funext finished.dinode_mount
  unfold FsState.stored
  rw [table, finished.sb]
  rfl

theorem Finished.bit_mount (finished : Finished s bytes) {b : Nat} (inside : b < bpb) :
    (mount s.image).bit b = decide (b < s.freeblock) := by
  have block : superblock.bblock b = superblock.bmapstart := by
    unfold Superblock.bblock
    rw [Nat.div_eq_of_lt inside, Nat.zero_add]
  unfold FsState.bit
  rw [finished.sb, block, Nat.mod_eq_of_lt inside]
  exact finished.bits b inside

theorem nmeta_superblock : superblock.nmeta = nmeta :=
  rfl

/-- A block of an inode has an address exactly if the file reaches it. -/
theorem Finished.entry_ne_zero (finished : Finished s bytes) {i bn : Nat} {spot : Spot}
    (low : 0 < i) (inside : i < s.freeinode) (index : spotOf bn = some spot) :
    Blocks.entry s.image (dinode s.image i) spot ≠ 0 ↔ bn * bsize < (bytes i).length :=
  (finished.stored.ranked i low (inside.trans_le finished.inodes) spot).trans
    (rank_lt_blocksFor index)

theorem Finished.noHole_file (finished : Finished s bytes) {i : Nat} (low : rootino < i)
    (inside : i < s.freeinode) : NoHole s.image (dinode s.image i) := by
  obtain ⟨short, addrs, isDin⟩ := finished.files i low inside
  intro bn before
  have size : (dinode s.image i).size.toNat = (bytes i).length := by
    rw [isDin]
    exact toNat_size short
  rw [size] at before
  have inFile : bn < maxfile := by
    have before : bn * 512 < (bytes i).length := before
    have short : (bytes i).length ≤ (12 + 128) * 512 := short
    change bn < 12 + 128
    omega
  obtain ⟨spot, index⟩ := exists_spotOf inFile
  exact ⟨spot, index, (finished.entry_ne_zero (Nat.zero_lt_of_lt low) inside index).mpr before⟩

/-- The root directory has a hole exactly if its entries fill whole blocks. -/
theorem Finished.noHole_root (finished : Finished s bytes) (low : rootino < s.freeinode)
    (short : (bytes rootino).length < maxfile * bsize) :
    NoHole s.image (dinode s.image rootino) ↔ (bytes rootino).length % bsize ≠ 0 := by
  obtain ⟨addrs, isDin⟩ := finished.root
  have short : (bytes rootino).length < (12 + 128) * 512 := short
  have size : (dinode s.image rootino).size.toNat = ((bytes rootino).length / 512 + 1) * 512 := by
    rw [isDin]
    refine UInt32.toNat_ofNat_of_lt' ?_
    change ((bytes rootino).length / 512 + 1) * 512 < 4294967296
    omega
  unfold NoHole
  rw [size]
  constructor
  · intro noHole
    obtain ⟨spot, index, filled⟩ := noHole ((bytes rootino).length / 512) (by
      change (bytes rootino).length / 512 * 512 < _
      omega)
    have reached : (bytes rootino).length / 512 * 512 < (bytes rootino).length :=
      (finished.entry_ne_zero (by decide) low index).mp filled
    change (bytes rootino).length % 512 ≠ 0
    omega
  · intro partial' bn before
    have partial' : (bytes rootino).length % 512 ≠ 0 := partial'
    have before : bn * 512 < ((bytes rootino).length / 512 + 1) * 512 := before
    have inFile : bn < maxfile := by
      change bn < 12 + 128
      omega
    obtain ⟨spot, index⟩ := exists_spotOf inFile
    refine ⟨spot, index, (finished.entry_ne_zero (by decide) low index).mpr ?_⟩
    change bn * 512 < _
    omega

theorem length_finalBytes_root (files : List HostFile) :
    (finalBytes files rootino).length = 16 * (files.length + 2) := by
  rw [finalBytes, added_root (by decide), Function.update_self]
  simp only [List.length_append, length_dirent, length_entries]
  omega

end Mounting

theorem Finished.consistent {s : State} {bytes : Nat → List UInt8} (finished : Finished s bytes)
    (noHole : NoHole s.image (dinode s.image rootino)) : Consistent s where
  super := finished.sb
  inodes i low inside := by
    rw [finished.sb]
    exact inside.trans_le finished.inodes
  data place b stored := by
    rw [finished.stored_mount] at stored
    obtain ⟨low, high⟩ := finished.stored.bounds stored
    rw [finished.sb]
    exact ⟨low, high.trans_le finished.bounded⟩
  apart first second b one two := by
    rw [finished.stored_mount] at one two
    exact finished.stored.accounts.apart one two
  bitmap b inside := by
    have used := finished.stored.accounts.used_iff b
    simp only [finished.stored_mount]
    rw [finished.bit_mount inside, decide_eq_true_eq, finished.sb, nmeta_superblock, ← used]
    have low := finished.stored.nmeta_le
    omega
  noHole i low inside := by
    rw [finished.dinode_mount]
    by_cases root : i = rootino
    · rw [root]
      exact noHole
    · have later : rootino < i := Nat.lt_of_le_of_ne low (Ne.symm root)
      exact finished.noHole_file later inside

/-- The image of a run that ends with status 0 is consistent exactly if there are
inode numbers for all files and the entries of the root directory do not fill its
last block. -/
theorem consistent_iff_of_mkfs {files : List HostFile} {s : State} (done : mkfs files = .ok s) :
    Consistent s ↔ files.length + 2 ≤ ninodes ∧ (files.length + 2) % (bsize / 16) ≠ 0 := by
  have count := freeinode_of_mkfs done
  have root (room : files.length + 2 ≤ ninodes) :
      NoHole s.image (dinode s.image rootino) ↔ (files.length + 2) % (bsize / 16) ≠ 0 := by
    have finished := finished_of_mkfs done room
    have length := length_finalBytes_root files
    have room : files.length + 2 ≤ 200 := room
    have low : rootino < s.freeinode := by
      rw [count]
      exact Nat.lt_of_lt_of_le (by decide) (Nat.le_add_left 2 _)
    have short : (finalBytes files rootino).length < maxfile * bsize := by
      rw [length]
      change 16 * (files.length + 2) < (12 + 128) * 512
      omega
    rw [finished.noHole_root low short, length]
    change 16 * (files.length + 2) % 512 ≠ 0 ↔ (files.length + 2) % 32 ≠ 0
    omega
  constructor
  · intro consistent
    have room : files.length + 2 ≤ ninodes := by
      have last := consistent.inodes (files.length + 1) (Nat.succ_pos _) (by omega)
      rw [consistent.super] at last
      exact last
    refine ⟨room, (root room).mp ?_⟩
    rw [← (finished_of_mkfs done room).dinode_mount]
    refine consistent.noHole rootino (by decide) ?_
    rw [count]
    exact Nat.succ_lt_succ (Nat.succ_pos _)
  · rintro ⟨room, partial'⟩
    exact (finished_of_mkfs done room).consistent ((root room).mpr partial')

/-- The kernel's block accounting starts from such an image. -/
theorem Finished.start_mount {s : State} {bytes : Nat → List UInt8} (finished : Finished s bytes)
    (noHole : NoHole s.image (dinode s.image rootino)) : Start (mount s.image) := by
  have consistent := finished.consistent noHole
  have size : fssize ≤ nbitmap * bpb := by decide
  have marked {b : Nat} (inside : b < fssize) :=
    consistent.bitmap b (inside.trans_le size)
  refine ⟨rfl, ?_, ?_, ⟨?_, consistent.apart, ?_, ?_⟩, fun _ => rfl, fun _ => rfl⟩
  · rw [finished.sb]
    exact ⟨by decide, by decide, by decide, by decide⟩
  · intro b front
    have inside : b < fssize := by
      rw [finished.sb] at front
      exact front.trans (by decide)
    exact (marked inside).mpr (.inl front)
  · intro place b stored
    have data := consistent.data place b stored
    have inside : b < fssize := by
      have bound := data.2
      rw [finished.sb] at bound
      exact bound
    exact ⟨data, (marked inside).mpr (.inr ⟨place, stored⟩)⟩
  · intro b data used
    have inside : b < fssize := by
      have bound := data.2
      rw [finished.sb] at bound
      exact bound
    rcases (marked inside).mp used with front | ⟨place, stored⟩
    · exact absurd data.1 (Nat.not_le_of_lt front)
    · exact ⟨place, stored, fun other same => consistent.apart _ _ b same stored⟩
  · intro i inode type
    refine consistent.noHole i inode.1 ?_
    by_contra later
    have inTable : i < ninodes := by
      have bound := inode.2
      rw [finished.sb] at bound
      exact bound
    rw [finished.dinode_mount, finished.unused i (Nat.le_of_not_lt later) inTable] at type
    exact type rfl

section Fitting

variable {bytes : Nat → List UInt8} {files : List HostFile}

variable (bytes) in
theorem sum_length_update {i : Nat} (value : List UInt8) (inside : i < ninodes) :
    (∑ j ∈ Finset.range ninodes, blocksFor (Function.update bytes i value j).length) +
        blocksFor (bytes i).length =
      (∑ j ∈ Finset.range ninodes, blocksFor (bytes j).length) + blocksFor value.length := by
  have pointwise (j : Nat) : blocksFor (Function.update bytes i value j).length =
      Function.update (fun j => blocksFor (bytes j).length) i (blocksFor value.length) j := by
    by_cases same : j = i
    · subst same
      rw [Function.update_self, Function.update_self]
    · rw [Function.update_of_ne same, Function.update_of_ne same]
  simp only [pointwise]
  exact sum_update _ inside

variable (files) in
theorem sum_added {next : Nat} (low : rootino < next) (room : next + files.length ≤ ninodes)
    (empty : ∀ i, next ≤ i → bytes i = []) :
    (∑ i ∈ Finset.range ninodes, blocksFor (added bytes next files i).length) +
        blocksFor (bytes rootino).length =
      (∑ i ∈ Finset.range ninodes, blocksFor (bytes i).length) +
        blocksFor ((bytes rootino).length + 16 * files.length) +
        (files.map fun file => blocksFor file.contents.length).sum := by
  induction files generalizing bytes next with
  | nil =>
      rw [added, List.length_nil, Nat.mul_zero, Nat.add_zero, List.map_nil, List.sum_nil,
        Nat.add_zero]
  | cons file rest ih =>
      rw [List.length_cons] at room
      generalize rooted : Function.update bytes rootino
        (bytes rootino ++ dirent next file.plainName) = bytes₁
      have notRoot : next ≠ rootino := low.ne'
      have inTable : next < ninodes := by omega
      have one := sum_length_update bytes
        (bytes rootino ++ dirent next file.plainName) (by decide : rootino < ninodes)
      rw [rooted, List.length_append, length_dirent] at one
      have two := sum_length_update bytes₁ file.contents inTable
      have blank : bytes₁ next = [] := by
        rw [← rooted, Function.update_of_ne notRoot]
        exact empty next (Nat.le_refl _)
      rw [blank, List.length_nil, blocksFor_zero] at two
      have root : (Function.update bytes₁ next file.contents rootino).length =
          (bytes rootino).length + 16 := by
        rw [Function.update_of_ne notRoot.symm, ← rooted, Function.update_self,
          List.length_append, length_dirent]
      have rest' (i : Nat) (after : next + 1 ≤ i) :
          Function.update bytes₁ next file.contents i = [] := by
        rw [Function.update_of_ne (by omega), ← rooted, Function.update_of_ne (by omega)]
        exact empty i (by omega)
      have low' : rootino < next + 1 := by omega
      have later := ih low' (by omega) rest'
      rw [root] at later
      have total : (bytes rootino).length + 16 * (file :: rest).length =
          (bytes rootino).length + 16 + 16 * rest.length := by
        rw [List.length_cons]
        omega
      rw [added, rooted, total, List.map_cons, List.sum_cons]
      omega

/-- The blocks of the root directory and of the files. -/
def blocksNeeded (files : List HostFile) : Nat :=
  blocksFor (16 * (files.length + 2)) +
    (files.map fun file => blocksFor file.contents.length).sum

theorem sum_finalBytes (room : files.length + 2 ≤ ninodes) :
    ∑ i ∈ Finset.range ninodes, blocksFor (finalBytes files i).length = blocksNeeded files := by
  have dots : (dirent rootino ['.'.toUInt8] ++
      dirent rootino ['.'.toUInt8, '.'.toUInt8]).length = 32 := by
    rw [List.length_append, length_dirent, length_dirent]
  have start := sum_length_update (fun _ => []) (dirent rootino ['.'.toUInt8] ++
    dirent rootino ['.'.toUInt8, '.'.toUInt8]) (by decide : rootino < ninodes)
  rw [dots] at start
  simp only [List.length_nil, blocksFor_zero, Finset.sum_const_zero, Nat.add_zero,
    Nat.zero_add] at start
  have blank (i : Nat) (later : 2 ≤ i) : Function.update (fun _ => []) rootino
      (dirent rootino ['.'.toUInt8] ++ dirent rootino ['.'.toUInt8, '.'.toUInt8]) i = [] :=
    Function.update_of_ne (Nat.lt_of_lt_of_le (by decide) later).ne' ..
  have all := sum_added files (by decide) (by omega) blank
  rw [Function.update_self, dots] at all
  have size : 32 + 16 * files.length = 16 * (files.length + 2) := by omega
  rw [size] at all
  unfold finalBytes blocksNeeded
  omega

theorem fits_of_blocks (room : files.length + 2 ≤ ninodes)
    (blocks : nmeta + blocksNeeded files ≤ fssize)
    (short : ∀ file ∈ files, file.contents.length ≤ maxfile * bsize) :
    Fits (finalBytes files) where
  length i := by
    by_cases root : i = rootino
    · rw [root, length_finalBytes_root]
      have room : files.length + 2 ≤ 200 := room
      change 16 * (files.length + 2) ≤ (12 + 128) * 512
      omega
    · by_cases before : i < 2
      · rw [finalBytes, added_of_lt before root, Function.update_of_ne root]
        exact Nat.zero_le _
      · obtain ⟨k, rfl⟩ := Nat.exists_eq_add_of_le (Nat.le_of_not_lt before)
        cases here : files[k]? with
        | none =>
            have beyond := List.getElem?_eq_none_iff.mp here
            rw [finalBytes, added_of_ge (by omega) root, Function.update_of_ne root]
            exact Nat.zero_le _
        | some file =>
            rw [finalBytes, added_file (by decide) here]
            exact short file (List.mem_of_getElem? here)
  blocks := by
    rw [sum_finalBytes room]
    exact blocks

end Fitting

/-- A file with the name `a` and nothing in it. -/
def emptyFile : HostFile where
  name := ['a'.toUInt8]
  reads := []
  terminated := by decide
  chunks := nofun

theorem mkfs_emptyFiles {n : Nat} (room : n + 2 ≤ ninodes) :
    ∃ s, mkfs (List.replicate n emptyFile) = .ok s := by
  have length : (List.replicate n emptyFile).length = n := List.length_replicate
  have room : n + 2 ≤ 200 := room
  refine mkfs_ends (by rw [length]; exact room) ?_
    (fits_of_blocks (by rw [length]; exact room) ?_ ?_)
  · intro file member
    rw [List.eq_of_mem_replicate member]
    decide
  · have none : ((List.replicate n emptyFile).map fun file =>
        blocksFor file.contents.length).sum = 0 := by
      rw [List.map_replicate, List.sum_replicate]
      exact Nat.mul_zero n
    rw [blocksNeeded, none, length]
    change 59 + ((16 * (n + 2) + 511) / 512 + (if 6144 < 16 * (n + 2) then 1 else 0) + 0) ≤ 1000
    split <;> omega
  · intro file member
    rw [List.eq_of_mem_replicate member]
    exact Nat.zero_le _

/-- A program of more than a block, read in two pieces, and a short text. -/
def programAndText : List HostFile :=
  [⟨['_'.toUInt8, 'c'.toUInt8], [List.replicate 512 1, [2, 3, 4]], by decide, by decide +kernel⟩,
    ⟨['b'.toUInt8], [[98, 121, 101]], by decide, by decide⟩]

theorem consistent_programAndText :
    ∃ s, mkfs programAndText = .ok s ∧ Consistent s := by
  have room : programAndText.length + 2 ≤ ninodes := by decide
  have named : ∀ file ∈ programAndText, '/'.toUInt8 ∉ file.name := by decide
  obtain ⟨s, done⟩ := mkfs_ends room named
    (fits_of_blocks room (by decide +kernel) (by decide +kernel))
  exact ⟨s, done, (consistent_iff_of_mkfs done).mpr (by decide)⟩

/-- The entries of 30 files fill the first block of the root directory. -/
theorem inconsistent_thirtyFiles :
    ∃ s, mkfs (List.replicate 30 emptyFile) = .ok s ∧
      ¬ NoHole s.image ((mount s.image).dinode rootino) ∧ ¬ Consistent s := by
  obtain ⟨s, done⟩ := mkfs_emptyFiles (n := 30) (by decide)
  have room : (List.replicate 30 emptyFile).length + 2 ≤ ninodes := by decide
  have finished := finished_of_mkfs done room
  have count := freeinode_of_mkfs done
  have low : rootino < s.freeinode := by
    rw [count]
    decide
  have hole : ¬ NoHole s.image ((mount s.image).dinode rootino) := by
    rw [finished.dinode_mount, finished.noHole_root low]
    · rw [length_finalBytes_root]
      decide
    · rw [length_finalBytes_root]
      decide
  exact ⟨s, done, hole, fun consistent => hole (consistent.noHole rootino (by decide) low)⟩

end Xv6.Mkfs
