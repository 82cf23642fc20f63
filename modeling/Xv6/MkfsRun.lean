import Xv6.MkfsImage

/-!
# Runs of mkfs

What the image holds after each call of `ialloc` and `iappend`, and so at the end
of `main`, as long as there are inode numbers left.  `mkfs` fails only if the
files do not fit.
-/

namespace Xv6.Mkfs

open ByteFields Blocks StateTriples

/-- The inode in the image. -/
def dinode (image : Disk) (i : Nat) : Dinode :=
  getDinode (image (superblock.iblock i)) (i % ipb)

/-- The type that `main` gives to an inode. -/
def typeOf (i : Nat) : UInt16 :=
  if i = rootino then tDir else tFile

theorem typeOf_ne_zero (i : Nat) : typeOf i ≠ 0 := by
  unfold typeOf
  split
  · decide
  · decide

/-- The inodes below `freeinode` have these bytes. -/
structure Holds (s : State) (bytes : Nat → List UInt8) : Prop where
  length : s.length = fssize
  super : s.image 1 = superSector
  stored : Stored s.image (dinode s.image) s.freeblock (fun i => blocksFor (bytes i).length) bytes
  used : ∀ i, 0 < i → i < s.freeinode → (bytes i).length ≤ maxfile * bsize ∧
    ∃ addrs, dinode s.image i = ⟨typeOf i, 0, 0, 1, UInt32.ofNat (bytes i).length, addrs⟩
  unused : ∀ i, s.freeinode ≤ i → bytes i = [] ∧ (i < ninodes → dinode s.image i = Dinode.zero)
  positive : 0 < s.freeinode
  inodes : s.freeinode ≤ ninodes
  bounded : s.freeblock ≤ fssize

/-- The files are not too long for an inode, nor for the image. -/
structure Fits (bytes : Nat → List UInt8) : Prop where
  length : ∀ i, (bytes i).length ≤ maxfile * bsize
  blocks : nmeta + ∑ i ∈ Finset.range ninodes, blocksFor (bytes i).length ≤ fssize

theorem Fits.mono {bytes bytes' : Nat → List UInt8} (fits : Fits bytes')
    (less : ∀ i, (bytes i).length ≤ (bytes' i).length) : Fits bytes where
  length i := (less i).trans (fits.length i)
  blocks := by
    have sum := Finset.sum_le_sum fun i (_ : i ∈ Finset.range ninodes) => blocksFor_mono (less i)
    have bound := fits.blocks
    omega

section Inodes

variable {s t : State} {bytes : Nat → List UInt8} {i j : Nat} {d : Dinode} {p : List UInt8}
  {allowed : Exit → Prop}

theorem iblock_bounds (inside : i < ninodes) :
    1 < superblock.iblock i ∧ superblock.iblock i < superblock.bmapstart := by
  have inside : i < 200 := inside
  change 1 < i / 8 + 32 ∧ i / 8 + 32 < 58
  omega

theorem iblock_lt_nmeta (inside : i < ninodes) : superblock.iblock i < nmeta := by
  have bound : superblock.iblock i < 58 := (iblock_bounds inside).2
  change superblock.iblock i < 59
  omega

theorem iblock_lt_fssize (inside : i < ninodes) : superblock.iblock i < fssize :=
  (iblock_lt_nmeta inside).trans (by decide)

theorem dinode_write (image : Disk) (i : Nat) (d : Dinode) :
    dinode (Function.update image (superblock.iblock i)
      (setDinode (image (superblock.iblock i)) (i % ipb) d)) =
      Function.update (dinode image) i d := by
  funext j
  have slot : i % ipb < ipb := Nat.mod_lt i (by decide)
  unfold dinode
  by_cases same : j = i
  · subst same
    rw [Function.update_self, Function.update_self, getDinode_setDinode d slot]
  · rw [Function.update_of_ne same]
    by_cases block : superblock.iblock j = superblock.iblock i
    · rw [block, Function.update_self, getDinode_setDinode_of_ne d slot
        fun slots => same (eq_of_iblock_eq block slots)]
    · rw [Function.update_of_ne block]

theorem dinode_congr {image image' : Disk} (inside : j < ninodes)
    (same : ∀ b, b < nmeta → image' b = image b) : dinode image' j = dinode image j := by
  unfold dinode
  rw [same _ (iblock_lt_nmeta inside)]

/-- `winode` on an inode of the table. -/
theorem wp_winode {post : Unit → State → Prop} (length : s.length = fssize)
    (inside : i < ninodes) :
    wp allowed (winode i d) post s ↔
      post () (s.write (superblock.iblock i)
        (setDinode (s.image (superblock.iblock i)) (i % ipb) d)) := by
  rw [winode, wp_bind, wp_rsect length (iblock_lt_fssize inside),
    wp_wsect length (iblock_lt_fssize inside)]

theorem wp_rinode {post : Dinode → State → Prop} (length : s.length = fssize)
    (inside : i < ninodes) :
    wp allowed (rinode i) post s ↔ post (dinode s.image i) s := by
  rw [rinode, wp_bind, wp_rsect length (iblock_lt_fssize inside), wp_pure]
  rfl

theorem toNat_size {n : Nat} (small : n ≤ maxfile * bsize) : (UInt32.ofNat n).toNat = n := by
  exact UInt32.toNat_ofNat_of_lt' (Nat.lt_of_le_of_lt small (by decide))

/-- `ialloc` makes an empty inode of the next number. -/
theorem ialloc_spec (holds : Holds s bytes) (room : s.freeinode < ninodes) :
    wp allowed (ialloc (typeOf s.freeinode))
      (fun i t => i = s.freeinode ∧ t.freeinode = s.freeinode + 1 ∧ Holds t bytes) s := by
  obtain ⟨none, zero⟩ := holds.unused s.freeinode (Nat.le_refl _)
  have zero := zero room
  unfold ialloc
  simp only [wp_bind, wp_get, wp_modify, wp_pure]
  rw [wp_winode (by exact holds.length) room]
  refine ⟨trivial, rfl, ?_⟩
  have table := dinode_write s.image s.freeinode
    { Dinode.zero with type := typeOf s.freeinode, nlink := 1 }
  generalize written : Function.update s.image (superblock.iblock s.freeinode)
    (setDinode (s.image (superblock.iblock s.freeinode)) (s.freeinode % ipb)
      { Dinode.zero with type := typeOf s.freeinode, nlink := 1 }) = image at table
  have same (b : Nat) (differ : b ≠ superblock.iblock s.freeinode) : image b = s.image b := by
    rw [← written]
    exact Function.update_of_ne differ ..
  have goal : Holds ⟨image, s.length, s.freeinode + 1, s.freeblock⟩ bytes := by
    refine ⟨holds.length, ?_, ?_, ?_, ?_, Nat.succ_pos _, room, holds.bounded⟩
    · exact (same 1 (iblock_bounds room).1.ne).trans holds.super
    · refine holds.stored.congr ?_ ?_ ?_
      · intro j low inside
        dsimp only
        rw [table]
        by_cases equal : j = s.freeinode
        · subst equal
          rw [Function.update_self, zero]
        · rw [Function.update_of_ne equal]
      · intro j low inside some'
        dsimp only at some' ⊢
        rw [table]
        have differ : j ≠ s.freeinode := by
          rintro rfl
          rw [none] at some'
          exact absurd some' (Nat.lt_irrefl _)
        rw [Function.update_of_ne differ]
      · intro b data
        exact same b ((iblock_lt_nmeta room).trans_le data).ne'
    · intro j low inside
      dsimp only at inside ⊢
      rw [table]
      by_cases equal : j = s.freeinode
      · subst equal
        rw [Function.update_self, none]
        exact ⟨Nat.zero_le _, _, rfl⟩
      · rw [Function.update_of_ne equal]
        exact holds.used j low (by omega)
    · intro j later
      dsimp only at later ⊢
      obtain ⟨empty, blank⟩ := holds.unused j (by omega)
      refine ⟨empty, fun inside => ?_⟩
      rw [table, Function.update_of_ne (by omega)]
      exact blank inside
  rw [← written] at goal
  exact goal

theorem length_update (bytes : Nat → List UInt8) (i : Nat) (p : List UInt8) :
    (fun j => blocksFor (Function.update bytes i (bytes i ++ p) j).length) =
      Function.update (fun j => blocksFor (bytes j).length) i
        (blocksFor ((bytes i).length + p.length)) := by
  funext j
  by_cases same : j = i
  · subst same
    rw [Function.update_self, Function.update_self, List.length_append]
  · rw [Function.update_of_ne same, Function.update_of_ne same]

/-- The bytes are put behind the file, unless they do not fit. -/
theorem iappend_spec (holds : Holds s bytes) (low : 0 < i) (inside : i < s.freeinode) :
    wp (fun _ => ¬ Fits (Function.update bytes i (bytes i ++ p))) (iappend i p)
      (fun _ t => Holds t (Function.update bytes i (bytes i ++ p)) ∧
        t.freeinode = s.freeinode) s := by
  have inTable : i < ninodes := inside.trans_le holds.inodes
  obtain ⟨short, addrs, isDin⟩ := holds.used i low inside
  have size : (dinode s.image i).size.toNat = (bytes i).length := by
    rw [isDin]
    exact toNat_size short
  have type : (dinode s.image i).type ≠ 0 := by
    rw [isDin]
    exact typeOf_ne_zero i
  have stored := holds.stored
  have table := Function.update_eq_self i (dinode s.image)
  rw [← table] at stored
  unfold iappend
  rw [wp_bind, wp_rinode holds.length inTable, wp_bind, size]
  refine wp_mono (wp_allow (appendBytes_spec (Nat.le_refl _) stored holds.length low inTable type
    rfl rfl holds.bounded) ?_) ?_
  · rintro - (tooLong | tooMany) fits
    · have bound := fits.length i
      rw [Function.update_self, List.length_append] at bound
      omega
    · have bound : nmeta + ∑ j ∈ Finset.range ninodes,
          Function.update (fun j => blocksFor (bytes j).length) i
            (blocksFor ((bytes i).length + p.length)) j ≤ fssize := by
        rw [← length_update]
        exact fits.blocks
      have sum : _ + blocksFor (bytes i).length =
          _ + blocksFor ((bytes i).length + p.length) :=
        sum_update (fun j => blocksFor (bytes j).length) inTable
      have total := holds.stored.total
      omega
  · intro ⟨din, off⟩ t ⟨ended, most, filled, bounded⟩
    obtain ⟨addrs', fields⟩ := filled.fields
    have ended : off = (bytes i).length + p.length := ended
    have fields : din = { dinode s.image i with addrs := addrs' } := fields
    have length : t.length = fssize := filled.extends'.length.trans holds.length
    have bound : off ≤ maxfile * bsize := by
      by_cases some' : 0 < p.length
      · exact most some'
      · omega
    rw [wp_winode length inTable]
    have same : t.freeinode = s.freeinode := filled.extends'.freeinode
    refine ⟨?_, same⟩
    have table' := dinode_write t.image i { din with size := UInt32.ofNat off }
    have last := filled.stored
    rw [← length_update] at last
    have before {j : Nat} (inside : j < ninodes) : dinode t.image j = dinode s.image j :=
      dinode_congr inside filled.extends'.front
    have goal : Holds ⟨Function.update t.image (superblock.iblock i)
        (setDinode (t.image (superblock.iblock i)) (i % ipb) { din with size := UInt32.ofNat off }),
        t.length, t.freeinode, t.freeblock⟩ (Function.update bytes i (bytes i ++ p)) := by
      refine ⟨length, ?_, ?_, ?_, ?_, ?_, ?_, bounded⟩
      · dsimp only
        rw [Function.update_of_ne (iblock_bounds inTable).1.ne, filled.extends'.front 1 (by decide)]
        exact holds.super
      · refine last.congr ?_ ?_ ?_
        · intro j positive range
          dsimp only
          rw [table']
          by_cases equal : j = i
          · subst equal
            rw [Function.update_self, Function.update_self]
          · rw [Function.update_of_ne equal, Function.update_of_ne equal, before range]
        · intro j positive range some'
          dsimp only
          rw [table']
          by_cases equal : j = i
          · subst equal
            rw [Function.update_self, Function.update_self]
          · rw [Function.update_of_ne equal, Function.update_of_ne equal, before range]
        · intro b data
          exact Function.update_of_ne ((iblock_lt_nmeta inTable).trans_le data).ne' ..
      · intro j positive range
        dsimp only at range ⊢
        rw [same] at range
        rw [table']
        by_cases equal : j = i
        · subst equal
          rw [Function.update_self, Function.update_self, List.length_append, ← ended]
          refine ⟨bound, addrs', ?_⟩
          rw [fields, isDin]
        · rw [Function.update_of_ne equal, Function.update_of_ne equal,
            before (range.trans_le holds.inodes)]
          exact holds.used j positive range
      · intro j later
        dsimp only at later ⊢
        rw [same] at later
        have equal : j ≠ i := by omega
        obtain ⟨empty, blank⟩ := holds.unused j later
        rw [table', Function.update_of_ne equal, Function.update_of_ne equal]
        refine ⟨empty, fun range => ?_⟩
        rw [before range]
        exact blank range
      · exact same ▸ holds.positive
      · exact same ▸ holds.inodes
    exact goal

/-- The loop that copies a file. -/
theorem copyFile_spec {reads : List (List UInt8)} (holds : Holds s bytes) (low : 0 < i)
    (inside : i < s.freeinode) :
    wp (fun _ => ¬ Fits (Function.update bytes i (bytes i ++ reads.flatten))) (copyFile i reads)
      (fun _ t => Holds t (Function.update bytes i (bytes i ++ reads.flatten)) ∧
        t.freeinode = s.freeinode) s := by
  induction reads generalizing s bytes with
  | nil =>
      rw [copyFile, wp_pure, List.flatten_nil, List.append_nil, Function.update_eq_self]
      exact ⟨holds, rfl⟩
  | cons chunk rest ih =>
      rw [copyFile, wp_bind]
      refine wp_mono (wp_allow (iappend_spec (p := chunk) holds low inside)
        fun _ full fits => full ?_) ?_
      · refine fits.mono fun j => ?_
        by_cases same : j = i
        · subst same
          rw [Function.update_self, Function.update_self, List.flatten_cons]
          simp only [List.length_append]
          omega
        · rw [Function.update_of_ne same, Function.update_of_ne same]
      · intro _ t ⟨held, same⟩
        have spec := ih held (same ▸ inside)
        rw [Function.update_self, Function.update_idem, List.append_assoc,
          ← List.flatten_cons] at spec
        refine wp_mono spec fun _ u ⟨last, equal⟩ => ⟨last, equal.trans same⟩

end Inodes

section Files

variable {s : State} {bytes : Nat → List UInt8} {files : List HostFile}

/-- The bytes of the inodes after files are added, from a number on. -/
def added (bytes : Nat → List UInt8) (next : Nat) : List HostFile → Nat → List UInt8
  | [] => bytes
  | file :: rest =>
      added (Function.update
        (Function.update bytes rootino (bytes rootino ++ dirent next file.plainName))
        next file.contents) (next + 1) rest

theorem added_of_lt {i next : Nat} (before : i < next) (notRoot : i ≠ rootino) :
    added bytes next files i = bytes i := by
  induction files generalizing bytes next with
  | nil => rfl
  | cons file rest ih =>
      rw [added, ih (by omega), Function.update_of_ne (by omega), Function.update_of_ne notRoot]

theorem added_of_ge {i next : Nat} (later : next + files.length ≤ i) (notRoot : i ≠ rootino) :
    added bytes next files i = bytes i := by
  induction files generalizing bytes next with
  | nil => rfl
  | cons file rest ih =>
      rw [List.length_cons] at later
      rw [added, ih (by omega), Function.update_of_ne (by omega), Function.update_of_ne notRoot]

/-- The inode of each file has its contents. -/
theorem added_file {next k : Nat} {file : HostFile} (low : rootino < next)
    (here : files[k]? = some file) : added bytes next files (next + k) = file.contents := by
  induction files generalizing bytes next k with
  | nil => cases here
  | cons first rest ih =>
      rw [added]
      cases k with
      | zero =>
          rw [List.getElem?_cons_zero, Option.some.injEq] at here
          subst here
          refine (added_of_lt (i := next) (Nat.lt_succ_self _) (by omega)).trans ?_
          exact Function.update_self ..
      | succ k =>
          rw [List.getElem?_cons_succ] at here
          have place : next + (k + 1) = next + 1 + k := by omega
          rw [place]
          exact ih (by omega) here

/-- The entries of files in the root directory, from a number on. -/
def entries (next : Nat) : List HostFile → List UInt8
  | [] => []
  | file :: rest => dirent next file.plainName ++ entries (next + 1) rest

theorem added_root {next : Nat} (low : rootino < next) :
    added bytes next files rootino = bytes rootino ++ entries next files := by
  induction files generalizing bytes next with
  | nil => exact (List.append_nil _).symm
  | cons file rest ih =>
      rw [added, ih (by omega), Function.update_of_ne (by omega), Function.update_self, entries,
        List.append_assoc]

theorem length_dirent (inum : Nat) (name : List UInt8) : (dirent inum name).length = 16 := by
  rw [dirent, List.length_append, List.length_map, List.length_range]
  rfl

theorem length_entries (next : Nat) : (entries next files).length = 16 * files.length := by
  induction files generalizing next with
  | nil => rfl
  | cons file rest ih =>
      rw [entries, List.length_append, length_dirent, ih, List.length_cons]
      omega

theorem length_le_added {next : Nat} (low : rootino < next) (empty : ∀ i, next ≤ i → bytes i = [])
    (i : Nat) : (bytes i).length ≤ (added bytes next files i).length := by
  by_cases root : i = rootino
  · subst root
    rw [added_root low, List.length_append]
    omega
  · by_cases before : i < next
    · rw [added_of_lt before root]
    · rw [empty i (Nat.le_of_not_lt before)]
      exact Nat.zero_le _

/-- No file has a `/` in its name. -/
def Named (files : List HostFile) : Prop :=
  ∀ file ∈ files, '/'.toUInt8 ∉ file.name

/-- The loop over the files. -/
theorem addFiles_spec (holds : Holds s bytes) (low : rootino < s.freeinode)
    (room : s.freeinode + files.length ≤ ninodes) :
    wp (fun _ => ¬ (Named files ∧ Fits (added bytes s.freeinode files))) (addFiles files)
      (fun _ t => Holds t (added bytes s.freeinode files) ∧
        t.freeinode = s.freeinode + files.length ∧ Named files) s := by
  induction files generalizing s bytes with
  | nil => exact ⟨holds, rfl, nofun⟩
  | cons file rest ih =>
      rw [List.length_cons] at room
      have next : s.freeinode < ninodes := by omega
      have isFile : typeOf s.freeinode = tFile := if_neg (by omega)
      rw [addFiles, wp_bind, wp_assert]
      refine ⟨fun named => ?_, fun slash good => slash (good.1 file (List.mem_cons_self ..))⟩
      rw [wp_bind, ← isFile]
      refine wp_mono (ialloc_spec holds next) ?_
      rintro _ t ⟨rfl, count, held⟩
      have empty (i : Nat) (later : s.freeinode ≤ i) : bytes i = [] := (holds.unused i later).1
      rw [wp_bind]
      have rootIn : rootino < t.freeinode := by omega
      refine wp_mono (wp_allow (iappend_spec (p := dirent s.freeinode file.plainName) held
        (by decide) rootIn) fun _ full good => full ?_) ?_
      · refine good.2.mono fun i => ?_
        rw [added]
        refine Nat.le_trans ?_ (length_le_added (by omega) (fun j later => ?_) i)
        · by_cases same : i = s.freeinode
          · subst same
            rw [Function.update_of_ne (by omega), empty _ (Nat.le_refl _)]
            exact Nat.zero_le _
          · rw [Function.update_of_ne same]
        · rw [Function.update_of_ne (by omega), Function.update_of_ne (by omega)]
          exact empty j (by omega)
      · intro _ u ⟨appended, same⟩
        rw [wp_bind]
        have copied : wp _ (copyFile s.freeinode file.reads) _ u := copyFile_spec appended
          (by omega : 0 < s.freeinode) (by omega)
        have here : Function.update bytes rootino
            (bytes rootino ++ dirent s.freeinode file.plainName) s.freeinode = [] := by
          rw [Function.update_of_ne (by omega)]
          exact empty _ (Nat.le_refl _)
        rw [here, List.nil_append] at copied
        refine wp_mono (wp_allow copied fun _ full good => full ?_) ?_
        · refine good.2.mono fun i => ?_
          rw [added]
          refine length_le_added (by omega) (fun j later => ?_) i
          rw [Function.update_of_ne (by omega), Function.update_of_ne (by omega)]
          exact empty j (by omega)
        · intro _ v ⟨done, equal⟩
          have number : v.freeinode = s.freeinode + 1 := by omega
          have more := ih done (by omega) (by omega)
          rw [number] at more
          refine wp_mono (wp_allow more fun _ bad good => bad ⟨?_, good.2⟩) ?_
          · exact fun other member => good.1 other (List.mem_cons_of_mem _ member)
          · intro _ w ⟨last, total, others⟩
            refine ⟨last, ?_, List.forall_mem_cons.mpr ⟨named, others⟩⟩
            rw [List.length_cons]
            omega

end Files

end Xv6.Mkfs
