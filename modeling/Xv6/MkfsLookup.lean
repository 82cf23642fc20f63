import Mathlib.Data.List.TakeWhile
import Xv6.MkfsConsistency
import Xv6.PathLookup

/-!
# The kernel reads what mkfs wrote

`dirlookup` and `namei` find each file of the image by its name in the root
directory, and `readi` returns its bytes.  An entry is found only if no entry in
front of it has its name, and those of the root directory itself come first.
-/

namespace Xv6.Mkfs

open ByteFields Blocks StateTriples

/-- The kernel has read inodes of the image and changed nothing. -/
structure Mounted (image : Disk) (u : FsState) : Prop where
  sb : u.sb = superblock
  disk : u.disk = image
  inode : ∀ i, u.valid i = true → u.inode i = dinode image i

section Reading

variable {image : Disk} {u : FsState} {i off left fuel : Nat} {contents : List UInt8}

theorem Mounted.dinode_eq (mounted : Mounted image u) (i : Nat) : u.dinode i = dinode image i := by
  unfold FsState.dinode
  rw [mounted.sb, mounted.disk]
  rfl

theorem Mounted.view (mounted : Mounted image u) (i : Nat) : u.view i = dinode image i := by
  unfold FsState.view
  split
  case isTrue valid => exact mounted.inode i valid
  case isFalse => exact mounted.dinode_eq i

theorem Mounted.holds (mounted : Mounted image u) (place : Nat × Spot) :
    u.holds place = held image (dinode image) ninodes place := by
  have table : u.view = dinode image := funext mounted.view
  unfold FsState.holds
  rw [table, mounted.sb, mounted.disk]
  rfl

/-- The bytes at the front of a file are in its blocks. -/
def Readable (u : FsState) (i : Nat) (contents : List UInt8) : Prop :=
  ∀ k byte, contents[k]? = some byte → ∃ spot b, spotOf (k / bsize) = some spot ∧
    u.holds (i, spot) = some b ∧ getByte (u.disk b) (k % bsize) = byte.toNat

/-- One block of a file. -/
theorem Readable.block (readable : Readable u i contents) {m b : Nat} {spot : Spot}
    (index : spotOf (off / bsize) = some spot) (stored : u.holds (i, spot) = some b)
    (inBlock : m ≤ bsize - off % bsize) (within : off + m ≤ contents.length) :
    ((List.range m).map fun k => UInt8.ofNat (getByte (u.disk b) (off % bsize + k))) =
      (contents.drop off).take m := by
  have inBlock : m ≤ 512 - off % 512 := inBlock
  refine List.ext_getElem? fun k => ?_
  rw [List.getElem?_map, List.getElem?_take, List.getElem?_drop]
  by_cases inside : k < m
  · rw [List.getElem?_range inside, if_pos inside, Option.map_some]
    have here : contents[off + k]? = some contents[off + k] := List.getElem?_eq_getElem (by omega)
    obtain ⟨spot', b', index', stored', value⟩ := readable _ _ here
    have sameBlock : (off + k) / bsize = off / bsize := by
      change (off + k) / 512 = off / 512
      omega
    have position : (off + k) % bsize = off % bsize + k := by
      change (off + k) % 512 = off % 512 + k
      omega
    rw [sameBlock, index, Option.some.injEq] at index'
    subst index'
    rw [stored, Option.some.injEq] at stored'
    subst stored'
    rw [position] at value
    rw [value, here, UInt8.ofNat_toNat]
  · rw [if_neg inside, List.getElem?_eq_none (by rw [List.length_range]; omega), Option.map_none]

theorem readBytes_of_readable (valid : u.valid i = true) (readable : Readable u i contents)
    (within : off + left ≤ contents.length) (enough : left ≤ fuel) :
    wp (fun _ => False) (readBytes i fuel off left)
      (fun bytes t => bytes = (contents.drop off).take left ∧ t = u) u := by
  induction fuel generalizing off left with
  | zero =>
      obtain rfl := Nat.le_zero.mp enough
      exact ⟨rfl, rfl⟩
  | succ fuel ih =>
      unfold readBytes
      split
      case isTrue done =>
        subst done
        exact ⟨rfl, rfl⟩
      case isFalse more =>
        obtain ⟨spot, b, index, stored, -⟩ := readable off _ (List.getElem?_eq_getElem (by omega))
        rw [wp_bind, wp, bmap_of_stored valid index stored]
        dsimp only
        rw [wp_bind, wp_get]
        generalize taken : min left (bsize - off % bsize) = m
        have taken : min left (512 - off % 512) = m := taken
        have inBlock : m ≤ 512 - off % 512 := by omega
        have position := Nat.mod_lt off (by decide : 0 < 512)
        rw [wp_bind, readable.block index stored inBlock (by omega)]
        refine wp_mono (ih (by omega : off + m + (left - m) ≤ contents.length) (by omega)) ?_
        rintro rest t ⟨rfl, rfl⟩
        rw [wp_pure]
        refine ⟨?_, rfl⟩
        have all : left = m + (left - m) := by omega
        conv_rhs => rw [all, List.take_add, List.drop_drop]

/-- What `readi` returns for a file with these contents. -/
def readResult (contents : List UInt8) (off n : UInt32) : Int × List UInt8 :=
  if contents.length < off.toNat ∨ 2 ^ 32 ≤ off.toNat + n.toNat then (-1, [])
  else
    let bytes := (contents.drop off.toNat).take n.toNat
    (bytes.length, bytes)

theorem add_lt_iff {off n : UInt32} : off + n < off ↔ 2 ^ 32 ≤ off.toNat + n.toNat := by
  have bound := n.toNat_lt
  have bound' := off.toNat_lt
  rw [UInt32.lt_iff_toNat_lt, UInt32.toNat_add]
  omega

variable {devsw : UInt16 → UInt32 → Int}

/-- `readi` in the part of a file that has these bytes. -/
theorem readi_of_readable {off n : UInt32} (valid : u.valid i = true)
    (readable : Readable u i contents) (notDev : (u.inode i).type ≠ tDev)
    (size : contents.length ≤ (u.inode i).size.toNat)
    (within : off.toNat + n.toNat ≤ contents.length) :
    wp (fun _ => False) (readi devsw i off n)
      (fun result t => result = ((n.toNat : Int), (contents.drop off.toNat).take n.toNat) ∧
        t = u) u := by
  have bound := (u.inode i).size.toNat_lt
  have inSize : ¬ (u.inode i).size < off := by
    rw [UInt32.lt_iff_toNat_lt]
    omega
  have noWrap : ¬ off + n < off := by
    rw [add_lt_iff]
    omega
  have whole : ¬ (u.inode i).size < off + n := by
    rw [UInt32.lt_iff_toNat_lt, toNat_add_of_le noWrap]
    omega
  unfold readi
  rw [wp_bind, wp_get]
  dsimp only
  rw [if_neg notDev, if_neg (not_or.mpr ⟨inSize, noWrap⟩), if_neg whole, wp_bind]
  refine wp_mono (readBytes_of_readable valid readable within (Nat.le_refl _)) ?_
  rintro bytes t ⟨rfl, rfl⟩
  exact ⟨rfl, rfl⟩

/-- `readi` of a whole file, at any offset and for any count. -/
theorem readi_of_contents (off n : UInt32) (valid : u.valid i = true)
    (readable : Readable u i contents) (notDev : (u.inode i).type ≠ tDev)
    (size : (u.inode i).size.toNat = contents.length) :
    readi devsw i off n u = .ok (readResult contents off n, u) := by
  have refused : (u.inode i).size < off ∨ off + n < off ↔
      contents.length < off.toNat ∨ 2 ^ 32 ≤ off.toNat + n.toNat := by
    rw [UInt32.lt_iff_toNat_lt, add_lt_iff, size]
  apply eq_of_wp
  by_cases fails : (u.inode i).size < off ∨ off + n < off
  · unfold readi
    rw [wp_bind, wp_get]
    dsimp only
    rw [if_neg notDev, if_pos fails, wp_pure, readResult, if_pos (refused.mp fails)]
    exact ⟨rfl, rfl⟩
  · have inside := mt refused.mpr fails
    rw [readResult, if_neg inside]
    rw [not_or] at fails inside
    by_cases cut : (u.inode i).size < off + n
    · -- the count is cut to what is left of the file
      have later : off ≤ (u.inode i).size := UInt32.not_lt.mp fails.1
      have left : ((u.inode i).size - off).toNat = contents.length - off.toNat := by
        rw [UInt32.toNat_sub_of_le _ _ later, size]
      have few : contents.length < off.toNat + n.toNat := by
        rw [UInt32.lt_iff_toNat_lt, toNat_add_of_le fails.2, size] at cut
        exact cut
      have bytes : (contents.drop off.toNat).take n.toNat =
          (contents.drop off.toNat).take (contents.length - off.toNat) := by
        rw [List.take_of_length_le (by rw [List.length_drop]; omega),
          List.take_of_length_le (by rw [List.length_drop])]
      unfold readi
      rw [wp_bind, wp_get]
      dsimp only
      rw [if_neg notDev, if_neg (not_or.mpr fails), if_pos cut, wp_bind, left]
      refine wp_mono (readBytes_of_readable valid readable (by omega) (Nat.le_refl _)) ?_
      rintro read t ⟨rfl, rfl⟩
      rw [wp_pure, bytes]
      refine ⟨Prod.ext ?_ rfl, rfl⟩
      dsimp only
      rw [List.length_take, List.length_drop, Nat.min_self]
    · have within : off.toNat + n.toNat ≤ contents.length := by
        rw [UInt32.lt_iff_toNat_lt, toNat_add_of_le fails.2, size] at cut
        omega
      refine wp_mono (readi_of_readable valid readable notDev size.ge within) ?_
      rintro result t ⟨rfl, rfl⟩
      refine ⟨Prod.ext ?_ rfl, rfl⟩
      dsimp only
      rw [List.length_take, List.length_drop, Nat.min_eq_left (by omega)]

end Reading

section Entries

/-- The entries of a directory, as bytes. -/
def direntsOf (entries : List (Nat × List UInt8)) : List UInt8 :=
  entries.flatMap fun entry => dirent entry.1 entry.2

theorem length_direntsOf (entries : List (Nat × List UInt8)) :
    (direntsOf entries).length = 16 * entries.length := by
  induction entries with
  | nil => rfl
  | cons entry rest ih =>
      rw [direntsOf, List.flatMap_cons, List.length_append, length_dirent, ← direntsOf, ih,
        List.length_cons]
      omega

/-- One entry of a directory. -/
theorem take_direntsOf {before after : List (Nat × List UInt8)} {entry : Nat × List UInt8} :
    ((direntsOf (before ++ entry :: after)).drop (16 * before.length)).take 16 =
      dirent entry.1 entry.2 := by
  have split : direntsOf (before ++ entry :: after) =
      direntsOf before ++ (dirent entry.1 entry.2 ++ direntsOf after) := by
    unfold direntsOf
    rw [List.flatMap_append, List.flatMap_cons]
  rw [split, List.drop_left' (length_direntsOf before), List.take_left' (length_dirent _ _)]

theorem direntInum_dirent {inum : Nat} (small : inum < 65536) (name : List UInt8) :
    direntInum (dirent inum name) = inum := by
  have low : (UInt8.ofNat inum).toNat = inum % 256 := UInt8.toNat_ofNat'
  have high : (UInt8.ofNat (inum / 256)).toNat = inum / 256 % 256 := UInt8.toNat_ofNat'
  change (UInt8.ofNat inum).toNat + 256 * (UInt8.ofNat (inum / 256)).toNat = inum
  rw [low, high]
  omega

theorem spells_dirent (inum : Nat) (name : List UInt8) :
    Spells dirsiz (direntName (dirent inum name)) (name.take dirsiz) := by
  intro k inside within
  have skip : (dirent inum name).getD (2 + k) 0 =
      ((List.range dirsiz).map fun k => name.getD k 0).getD k 0 := by
    rw [dirent, Nat.add_comm]
    rfl
  unfold direntName
  rw [skip, List.getD_eq_getElem?_getD, List.getElem?_map, List.getElem?_range inside,
    Option.map_some, Option.getD_some, List.getD_eq_getElem?_getD, List.getD_eq_getElem?_getD,
    List.getElem?_take, if_pos inside]

/-- The entries that the kernel can meet. -/
def Entered (entry : Nat × List UInt8) : Prop :=
  0 < entry.1 ∧ entry.1 < 65536 ∧ 0 ∉ entry.2

variable {devsw : UInt16 → UInt32 → Int} {u : FsState} {dp : Nat}
  {entries : List (Nat × List UInt8)} {name : CharPtr} {target : List UInt8}

/-- The loop of `dirlookup` stops at the first entry with the name. -/
theorem lookupFrom_spec {before after : List (Nat × List UInt8)} {entry : Nat × List UInt8}
    {fuel : Nat} {off : UInt32} (valid : u.valid dp = true)
    (readable : Readable u dp (direntsOf entries)) (isDir : (u.inode dp).type = tDir)
    (size : (direntsOf entries).length ≤ (u.inode dp).size.toNat)
    (entered : ∀ entry ∈ entries, Entered entry) (spells : Spells dirsiz name target)
    (short : target.length ≤ dirsiz) (noNul : 0 ∉ target)
    (split : entries = before ++ after) (place : off.toNat = 16 * before.length)
    (found : after.find? (fun entry => entry.2.take dirsiz = target) = some entry)
    (enough : after.length ≤ fuel) :
    wp (fun _ => False) (lookupFrom devsw dp name fuel off)
      (fun result t => result = some entry.1 ∧ iget entry.1 u = .ok ((), t)) u := by
  induction fuel generalizing before after off with
  | zero =>
      obtain rfl := List.eq_nil_of_length_eq_zero (Nat.le_zero.mp enough)
      cases found
  | succ fuel ih =>
      cases after with
      | nil => cases found
      | cons first rest =>
          have length := length_direntsOf entries
          rw [split, List.length_append, List.length_cons] at length
          rw [← split] at length
          have bound := (u.inode dp).size.toNat_lt
          have sixteen : (16 : UInt32).toNat = 16 := rfl
          have notDev : (u.inode dp).type ≠ tDev := by
            rw [isDir]
            decide
          have inSize : off < (u.inode dp).size := by
            rw [UInt32.lt_iff_toNat_lt]
            omega
          have noWrap : ¬ off + 16 < off := by
            rw [add_lt_iff]
            omega
          have next : (off + 16).toNat = 16 * (before ++ [first]).length := by
            rw [toNat_add_of_le noWrap, sixteen, place, List.length_append, List.length_singleton]
            omega
          have member : first ∈ entries := by
            rw [split]
            exact List.mem_append_right _ (List.mem_cons_self ..)
          obtain ⟨positive, small, clean⟩ := entered first member
          have bytes : ((direntsOf entries).drop off.toNat).take (16 : UInt32).toNat =
              dirent first.1 first.2 := by
            rw [place, split]
            exact take_direntsOf
          unfold lookupFrom
          rw [wp_bind, wp_get, if_pos inSize, wp_bind]
          refine wp_mono (readi_of_readable valid readable notDev size (by omega)) ?_
          rintro result t ⟨rfl, rfl⟩
          rw [bytes]
          dsimp only
          have full : ¬ ((16 : UInt32).toNat : Int) ≠ 16 := by decide
          rw [if_neg full, direntInum_dirent small, if_neg positive.ne']
          have same : namecmp name (direntName (dirent first.1 first.2)) = 0 ↔
              target = first.2.take dirsiz :=
            strncmp_eq_zero_iff spells (spells_dirent _ _) short (List.length_take_le ..) noNul
              fun inside => clean (List.mem_of_mem_take inside)
          by_cases here : first.2.take dirsiz = target
          · rw [if_pos (same.mpr here.symm)]
            rw [List.find?_cons_of_pos (by simpa using here), Option.some.injEq] at found
            subst found
            exact ⟨rfl, rfl⟩
          · rw [if_neg fun equal => here (same.mp equal).symm]
            rw [List.find?_cons_of_neg (by simpa using here)] at found
            refine ih ?_ next found (Nat.le_of_succ_le_succ enough)
            rw [split, List.append_assoc]
            rfl

/-- `dirlookup` returns the first entry with the name. -/
theorem dirlookup_spec {entry : Nat × List UInt8} (valid : u.valid dp = true)
    (readable : Readable u dp (direntsOf entries)) (isDir : (u.inode dp).type = tDir)
    (size : (direntsOf entries).length ≤ (u.inode dp).size.toNat)
    (entered : ∀ entry ∈ entries, Entered entry) (spells : Spells dirsiz name target)
    (short : target.length ≤ dirsiz) (noNul : 0 ∉ target)
    (found : entries.find? (fun entry => entry.2.take dirsiz = target) = some entry) :
    wp (fun _ => False) (dirlookup devsw dp name)
      (fun result t => result = some entry.1 ∧ iget entry.1 u = .ok ((), t)) u := by
  have enough : entries.length ≤ (u.inode dp).size.toNat / 16 + 1 := by
    rw [length_direntsOf] at size
    omega
  unfold dirlookup
  rw [wp_bind, wp_get, if_neg (not_not.mpr isDir)]
  have split : entries = [] ++ entries := rfl
  exact lookupFrom_spec valid readable isDir size entered spells short noNul split rfl found enough

end Entries

section Steps

variable {image : Disk} {u : FsState} {i : Nat} {allowed : FsPanic → Prop}

theorem iget_spec (mounted : Mounted image u) :
    wp allowed (iget i) (fun _ t => Mounted image t ∧ t.ref i = u.ref i + 1 ∧
      (∀ j, j ≠ i → t.ref j = u.ref j) ∧ (∀ j, 0 < u.ref j → t.valid j = u.valid j)) u := by
  unfold iget
  rw [wp_modify]
  split
  case isTrue fresh =>
    refine ⟨⟨mounted.sb, mounted.disk, ?_⟩, Function.update_self .., ?_, ?_⟩
    · intro j valid
      by_cases same : j = i
      · subst same
        have isFalse : (Function.update u.valid j false) j = true := valid
        rw [Function.update_self] at isFalse
        cases isFalse
      · have before : (Function.update u.valid i false) j = true := valid
        rw [Function.update_of_ne same] at before
        exact mounted.inode j before
    · intro j other
      exact Function.update_of_ne other ..
    · intro j counted
      have other : j ≠ i := by
        rintro rfl
        omega
      exact Function.update_of_ne other ..
  case isFalse =>
    refine ⟨⟨mounted.sb, mounted.disk, mounted.inode⟩, Function.update_self .., ?_, fun _ _ => rfl⟩
    intro j other
    exact Function.update_of_ne other ..

theorem ilock_spec (mounted : Mounted image u) (counted : 0 < u.ref i)
    (type : (dinode image i).type ≠ 0) :
    wp allowed (ilock i) (fun _ t => Mounted image t ∧ t.valid i = true ∧ t.ref = u.ref) u := by
  unfold ilock
  rw [wp_bind, wp_get, if_neg (by omega)]
  split
  case isTrue fresh =>
    have same := mounted.dinode_eq i
    rw [same]
    simp only [wp_bind, wp_set]
    rw [if_neg type]
    refine ⟨⟨mounted.sb, mounted.disk, ?_⟩, Function.update_self .., rfl⟩
    intro j valid
    by_cases equal : j = i
    · subst equal
      exact Function.update_self ..
    · have before : (Function.update u.valid i true) j = true := valid
      rw [Function.update_of_ne equal] at before
      exact (Function.update_of_ne equal ..).trans (mounted.inode j before)
  case isFalse known =>
    exact ⟨mounted, by simpa using known, rfl⟩

theorem iput_spec (mounted : Mounted image u) (linked : (dinode image i).nlink ≠ 0) :
    wp allowed (iput i) (fun _ t => Mounted image t ∧ t.ref i = u.ref i - 1 ∧
      ∀ j, j ≠ i → t.ref j = u.ref j) u := by
  have stays : ¬ (u.valid i = true ∧ (u.inode i).nlink = 0 ∧ u.ref i = 1) := by
    rintro ⟨valid, none, -⟩
    rw [mounted.inode i valid] at none
    exact linked none
  unfold iput
  rw [wp_bind, wp_get, if_neg stays]
  refine ⟨⟨mounted.sb, mounted.disk, mounted.inode⟩, Function.update_self .., fun j other => ?_⟩
  exact Function.update_of_ne other ..

end Steps

/-- The lookup finds a file, of this length, that reads as these bytes. -/
def Yields (devsw : UInt16 → UInt32 → Int) (lookup : Fs (Option Nat)) (s : FsState)
    (contents : List UInt8) : Prop :=
  ∃ i t u, lookup s = .ok (some i, t) ∧ ilock i t = .ok ((), u) ∧
    (u.inode i).type = tFile ∧ (u.inode i).size.toNat = contents.length ∧
    ∀ off n, readi devsw i off n u = .ok (readResult contents off n, u)

/-- `dirlookup` in the root directory. -/
def lookupRoot (devsw : UInt16 → UInt32 → Int) (name : List UInt8) : Fs (Option Nat) := do
  iget rootino
  ilock rootino
  dirlookup devsw rootino (cstr name)

section Files

variable {files : List HostFile} {s : State} {bytes : Nat → List UInt8}
  {devsw : UInt16 → UInt32 → Int}

/-- The entries of files, from an inode number on. -/
def numbered (next : Nat) : List HostFile → List (Nat × List UInt8)
  | [] => []
  | file :: rest => (next, file.plainName) :: numbered (next + 1) rest

/-- The entries of the root directory. -/
def rootEntries (files : List HostFile) : List (Nat × List UInt8) :=
  (rootino, ['.'.toUInt8]) :: (rootino, ['.'.toUInt8, '.'.toUInt8]) :: numbered 2 files

theorem entries_eq (next : Nat) (files : List HostFile) :
    entries next files = direntsOf (numbered next files) := by
  induction files generalizing next with
  | nil => rfl
  | cons file rest ih =>
      rw [entries, ih]
      rfl

theorem finalBytes_root (files : List HostFile) :
    finalBytes files rootino = direntsOf (rootEntries files) := by
  rw [finalBytes, added_root (by decide), Function.update_self, entries_eq, List.append_assoc]
  rfl

theorem plainName_clean (file : HostFile) : 0 ∉ file.plainName := by
  unfold HostFile.plainName
  split
  · exact fun inside => file.terminated (List.mem_of_mem_tail inside)
  · exact file.terminated

theorem entered_numbered {next : Nat} (low : 0 < next) (high : next + files.length ≤ 65536) :
    ∀ entry ∈ numbered next files, Entered entry := by
  induction files generalizing next with
  | nil => exact nofun
  | cons file rest ih =>
      rw [List.length_cons] at high
      intro entry member
      rcases List.mem_cons.mp member with rfl | later
      · refine ⟨low, ?_, plainName_clean file⟩
        change next < 65536
        omega
      · exact ih (Nat.succ_pos _) (by omega) entry later

theorem entered_rootEntries (room : files.length + 2 ≤ ninodes) :
    ∀ entry ∈ rootEntries files, Entered entry := by
  have room : files.length + 2 ≤ 200 := room
  intro entry member
  rcases List.mem_cons.mp member with rfl | later
  · exact ⟨by decide, by decide, by decide⟩
  · rcases List.mem_cons.mp later with rfl | last
    · exact ⟨by decide, by decide, by decide⟩
    · exact entered_numbered (by decide) (by omega) entry last

/-- The first entry with the name of a file is its own. -/
theorem find?_numbered {next k : Nat} {file : HostFile} (here : files[k]? = some file)
    (distinct : (files.map HostFile.entryName).Nodup) :
    (numbered next files).find? (fun entry => entry.2.take dirsiz = file.entryName) =
      some (next + k, file.plainName) := by
  induction files generalizing next k with
  | nil => cases here
  | cons first rest ih =>
      rw [List.map_cons, List.nodup_cons] at distinct
      cases k with
      | zero =>
          rw [List.getElem?_cons_zero, Option.some.injEq] at here
          subst here
          exact List.find?_cons_of_pos (decide_eq_true rfl)
      | succ k =>
          rw [List.getElem?_cons_succ] at here
          have differ : ¬ first.plainName.take dirsiz = file.entryName := by
            intro same
            refine distinct.1 (List.mem_map.mpr ⟨file, List.mem_of_getElem? here, ?_⟩)
            exact same.symm
          have rest' : (numbered (next + 1) rest).find? _ = _ := ih here distinct.2
          have place : next + 1 + k = next + (k + 1) := by omega
          rw [numbered, List.find?_cons_of_neg (by simpa using differ), rest', place]

/-- A name of a file that no entry of the directory itself has. -/
def NotDots (file : HostFile) : Prop :=
  file.entryName ≠ ['.'.toUInt8] ∧ file.entryName ≠ ['.'.toUInt8, '.'.toUInt8]

theorem find?_rootEntries {k : Nat} {file : HostFile} (here : files[k]? = some file)
    (distinct : (files.map HostFile.entryName).Nodup) (notDots : NotDots file) :
    (rootEntries files).find? (fun entry => entry.2.take dirsiz = file.entryName) =
      some (2 + k, file.plainName) := by
  have one : ¬ (['.'.toUInt8].take dirsiz = file.entryName) := fun same => notDots.1 same.symm
  have two : ¬ (['.'.toUInt8, '.'.toUInt8].take dirsiz = file.entryName) :=
    fun same => notDots.2 same.symm
  rw [rootEntries, List.find?_cons_of_neg (by simpa using one),
    List.find?_cons_of_neg (by simpa using two)]
  exact find?_numbered here distinct

theorem Finished.mounted (finished : Finished s bytes) : Mounted s.image (mount s.image) where
  sb := finished.sb
  disk := rfl
  inode i valid := by cases valid

theorem Finished.readable {u : FsState} {i : Nat} (finished : Finished s bytes)
    (mounted : Mounted s.image u) (low : 0 < i) (inside : i < ninodes) :
    Readable u i (bytes i) := by
  intro k byte here
  obtain ⟨spot, b, index, holds, value⟩ := finished.stored.contents i k byte low inside here
  refine ⟨spot, b, index, (mounted.holds _).trans holds, ?_⟩
  rw [mounted.disk]
  exact value

/-- A file that is referenced can be locked and read. -/
theorem Finished.file {u : FsState} {i : Nat} (finished : Finished s bytes)
    (mounted : Mounted s.image u) (low : rootino < i) (inside : i < s.freeinode)
    (counted : 0 < u.ref i) :
    ∃ t, ilock i u = .ok ((), t) ∧ (t.inode i).type = tFile ∧
      (t.inode i).size.toNat = (bytes i).length ∧
      ∀ off n, readi devsw i off n t = .ok (readResult (bytes i) off n, t) := by
  obtain ⟨short, addrs, isDin⟩ := finished.files i low inside
  have type : (dinode s.image i).type ≠ 0 := by
    rw [isDin]
    exact (by decide : tFile ≠ 0)
  have locks : wp (fun _ => False) (ilock i) _ u := ilock_spec mounted counted type
  unfold wp at locks
  split at locks
  case h_2 => cases locks
  case h_1 t locked =>
    obtain ⟨mounted', valid, -⟩ := locks
    have known := (mounted'.inode i valid).trans isDin
    have isFile : (t.inode i).type = tFile := by rw [known]
    have size : (t.inode i).size.toNat = (bytes i).length := by
      rw [known]
      exact toNat_size short
    have readable := finished.readable mounted' (Nat.zero_lt_of_lt low)
      (inside.trans_le finished.inodes)
    have notDev : (t.inode i).type ≠ tDev := by
      rw [isFile]
      decide
    exact ⟨t, locked, isFile, size,
      fun off n => readi_of_contents off n valid readable notDev size⟩

/-- The root directory, once it is locked, has its entries in front. -/
theorem Finished.root_locked {u : FsState} (finished : Finished s (finalBytes files))
    (room : files.length + 2 ≤ ninodes) (mounted : Mounted s.image u)
    (valid : u.valid rootino = true) :
    (u.inode rootino).type = tDir ∧
      (direntsOf (rootEntries files)).length ≤ (u.inode rootino).size.toNat ∧
      Readable u rootino (direntsOf (rootEntries files)) := by
  obtain ⟨addrs, isDin⟩ := finished.root
  have room : files.length + 2 ≤ 200 := room
  have known := (mounted.inode rootino valid).trans isDin
  refine ⟨by rw [known], ?_, ?_⟩
  · rw [known, ← finalBytes_root, length_finalBytes_root]
    have size : (UInt32.ofNat (roundedSize (16 * (files.length + 2)))).toNat =
        (16 * (files.length + 2) / 512 + 1) * 512 := by
      refine UInt32.toNat_ofNat_of_lt' ?_
      change (16 * (files.length + 2) / 512 + 1) * 512 < 4294967296
      omega
    rw [size]
    omega
  · rw [← finalBytes_root]
    exact finished.readable mounted (by decide) (by decide)

/-- `dirlookup` in the locked root directory takes a reference to the first inode
with the name. -/
theorem Finished.dirlookup_root {u : FsState} {name : CharPtr} {target : List UInt8}
    {entry : Nat × List UInt8} (finished : Finished s (finalBytes files))
    (room : files.length + 2 ≤ ninodes) (mounted : Mounted s.image u)
    (valid : u.valid rootino = true) (spells : Spells dirsiz name target)
    (short : target.length ≤ dirsiz) (noNul : 0 ∉ target)
    (found : (rootEntries files).find? (fun entry => entry.2.take dirsiz = target) =
      some entry) :
    wp (fun _ => False) (dirlookup devsw rootino name)
      (fun result t => result = some entry.1 ∧ Mounted s.image t ∧
        t.ref entry.1 = u.ref entry.1 + 1) u := by
  obtain ⟨isDir, size, readable⟩ := finished.root_locked room mounted valid
  refine wp_mono (dirlookup_spec valid readable isDir size (entered_rootEntries room) spells short
    noNul found) ?_
  rintro result t ⟨rfl, got⟩
  have after : wp (fun _ => False) (iget entry.1) _ u := iget_spec mounted
  have facts := post_of_wp after got
  exact ⟨rfl, facts.1, facts.2.1⟩

theorem spells_cstr (n : Nat) (text : List UInt8) : Spells n (cstr text) text :=
  fun _ _ _ => rfl

theorem root_fields (finished : Finished s bytes) :
    (dinode s.image rootino).type ≠ 0 ∧ (dinode s.image rootino).nlink ≠ 0 := by
  obtain ⟨addrs, isDin⟩ := finished.root
  rw [isDin]
  exact ⟨(by decide : tDir ≠ 0), (by decide : (1 : UInt16) ≠ 0)⟩

theorem lookupRoot_spec {target : List UInt8} {entry : Nat × List UInt8}
    (finished : Finished s (finalBytes files)) (room : files.length + 2 ≤ ninodes)
    (short : target.length ≤ dirsiz) (noNul : 0 ∉ target)
    (found : (rootEntries files).find? (fun entry => entry.2.take dirsiz = target) =
      some entry) :
    wp (fun _ => False) (lookupRoot devsw target)
      (fun result t => result = some entry.1 ∧ Mounted s.image t ∧ 0 < t.ref entry.1)
      (mount s.image) := by
  unfold lookupRoot
  rw [wp_bind]
  refine wp_mono (iget_spec (i := rootino) finished.mounted) ?_
  intro _ u ⟨mounted, counted, _⟩
  rw [wp_bind]
  refine wp_mono (ilock_spec mounted (by omega) (root_fields finished).1) ?_
  intro _ v ⟨mounted, valid, _⟩
  refine wp_mono (finished.dirlookup_root room mounted valid (spells_cstr _ _) short noNul found) ?_
  rintro result t ⟨rfl, mounted, counted⟩
  exact ⟨rfl, mounted, by omega⟩

/-- A path of one name behind a slash. -/
theorem skipelem_root {target : List UInt8} (name : CharPtr) (some' : target ≠ [])
    (plain : '/'.toUInt8 ∉ target) :
    skipelem ('/'.toUInt8 :: target) name = some ([], copyName target name) := by
  have noSlash (c : UInt8) (inside : c ∈ target) : isSlash c = false := by
    refine decide_eq_false ?_
    rintro rfl
    exact plain inside
  have front : ('/'.toUInt8 :: target).dropWhile isSlash = target := by
    rw [List.dropWhile_cons_of_pos (by decide)]
    cases target with
    | nil => rfl
    | cons c rest =>
        refine List.dropWhile_cons_of_neg ?_
        rw [noSlash c (List.mem_cons_self ..)]
        exact Bool.false_ne_true
  have whole : target.takeWhile (fun c => !isSlash c) = target :=
    List.takeWhile_eq_self_iff.mpr fun c inside => by rw [noSlash c inside, Bool.not_false]
  have none : target.dropWhile (fun c => !isSlash c) = [] :=
    List.dropWhile_eq_nil_iff.mpr fun c inside => by rw [noSlash c inside, Bool.not_false]
  unfold skipelem
  rw [front]
  dsimp only
  rw [if_neg some', whole, none]
  rfl

theorem spells_copyName {target : List UInt8} (name : CharPtr) :
    Spells dirsiz (copyName target name) target := by
  intro k inside within
  unfold copyName
  split
  case isTrue => rfl
  case isFalse beyond =>
    have ends : k = target.length := by omega
    have short : target.length < dirsiz := by omega
    rw [if_pos ⟨ends, short⟩, List.getD_eq_getElem?_getD, List.getElem?_eq_none ends.ge]
    rfl

theorem namei_spec (cwd : Nat) {target : List UInt8} {entry : Nat × List UInt8}
    (finished : Finished s (finalBytes files)) (room : files.length + 2 ≤ ninodes)
    (short : target.length ≤ dirsiz) (noNul : 0 ∉ target) (some' : target ≠ [])
    (plain : '/'.toUInt8 ∉ target)
    (found : (rootEntries files).find? (fun entry => entry.2.take dirsiz = target) =
      some entry) :
    wp (fun _ => False) (namei devsw cwd ('/'.toUInt8 :: target))
      (fun result t => result = some entry.1 ∧ Mounted s.image t ∧ 0 < t.ref entry.1)
      (mount s.image) := by
  unfold namei namex
  rw [List.head?_cons, if_pos rfl, wp_bind, wp_bind]
  refine wp_mono (iget_spec (i := rootino) finished.mounted) ?_
  intro _ u ⟨mounted, counted, _⟩
  have counted : u.ref rootino = 1 := counted
  rw [List.length_cons, walkPath, skipelem_root _ some' plain]
  dsimp only
  rw [wp_bind]
  refine wp_mono (ilock_spec mounted (by omega) (root_fields finished).1) ?_
  intro _ v ⟨mounted, valid, refs⟩
  have isDir := (finished.root_locked room mounted valid).1
  rw [wp_bind, wp_get, if_neg (not_not.mpr isDir), if_neg (fun both => Bool.false_ne_true both.1),
    wp_bind]
  refine wp_mono (finished.dirlookup_root room mounted valid (spells_copyName _) short noNul
    found) ?_
  rintro result w ⟨rfl, mounted, more⟩
  rw [wp_bind]
  refine wp_mono (iput_spec mounted (root_fields finished).2) ?_
  intro _ x ⟨mounted, fewer, others⟩
  dsimp only
  rw [walkPath]
  refine ⟨rfl, mounted, ?_⟩
  by_cases root : entry.1 = rootino
  · rw [root, refs] at more
    rw [root]
    omega
  · rw [others _ root]
    omega

/-- What the lookup of a name yields. -/
theorem yields_of_spec {lookup : Fs (Option Nat)} {i : Nat} (finished : Finished s bytes)
    (low : rootino < i) (inside : i < s.freeinode)
    (spec : wp (fun _ => False) lookup
      (fun result t => result = some i ∧ Mounted s.image t ∧ 0 < t.ref i) (mount s.image)) :
    Yields devsw lookup (mount s.image) (bytes i) := by
  unfold wp at spec
  split at spec
  case h_2 => cases spec
  case h_1 result t found =>
    obtain ⟨rfl, mounted, counted⟩ := spec
    obtain ⟨u, locked, type, size, reads⟩ := finished.file mounted low inside counted
    exact ⟨i, t, u, found, locked, type, size, reads⟩

end Files

/-- The names of the files in the directory are looked up as the files themselves.
`mkfs` ends with status 0 unless a name has a slash or a file is too long for an
inode. -/
theorem lookup_of_mkfs (devsw : UInt16 → UInt32 → Int) (cwd : Nat) {files : List HostFile}
    (room : files.length + 1 < ninodes) (blocks : nmeta + blocksNeeded files ≤ fssize)
    (distinct : (files.map HostFile.entryName).Nodup) (notDots : ∀ file ∈ files, NotDots file) :
    (Named files → (∀ file ∈ files, file.contents.length ≤ maxfile * bsize) →
      ∃ s, mkfs files = .ok s) ∧
    ∀ s, mkfs files = .ok s → ∀ file ∈ files,
      Yields devsw (lookupRoot devsw file.entryName) (mount s.image) file.contents ∧
      (file.entryName ≠ [] →
        Yields devsw (namei devsw cwd ('/'.toUInt8 :: file.entryName)) (mount s.image)
          file.contents) := by
  refine ⟨fun named short => mkfs_ends room named (fits_of_blocks room blocks short), ?_⟩
  intro s done file member
  have finished := finished_of_mkfs done room
  have named := named_of_mkfs done room
  have count := freeinode_of_mkfs done
  obtain ⟨k, here⟩ := List.getElem?_of_mem member
  have index : k < files.length := (List.getElem?_eq_some_iff.mp here).1
  have contents : finalBytes files (2 + k) = file.contents := added_file (by decide) here
  have found := find?_rootEntries here distinct (notDots file member)
  have short : file.entryName.length ≤ dirsiz := List.length_take_le ..
  have clean : 0 ∉ file.entryName :=
    fun inside => plainName_clean file (List.mem_of_mem_take inside)
  have low : rootino < 2 + k := Nat.lt_of_lt_of_le (by decide) (Nat.le_add_right 2 k)
  have inside : 2 + k < s.freeinode := by omega
  have plain : '/'.toUInt8 ∉ file.entryName := by
    intro slash
    refine named file member ?_
    have inName := List.mem_of_mem_take slash
    unfold HostFile.plainName at inName
    split at inName
    · exact List.mem_of_mem_tail inName
    · exact inName
  rw [← contents]
  refine ⟨yields_of_spec finished low inside
    (lookupRoot_spec finished room short clean found), fun some' => ?_⟩
  exact yields_of_spec finished low inside
    (namei_spec cwd finished room short clean some' plain found)

/-- A binary that is named as the makefile names them. -/
def helloFile : HostFile where
  name := ['_'.toUInt8, 'a'.toUInt8]
  reads := [[104, 105]]
  terminated := by decide
  chunks := by decide

theorem lookup_helloFile :
    ∃ s, mkfs [helloFile] = .ok s ∧
      Yields (fun _ _ => -1) (namei (fun _ _ => -1) rootino ['/'.toUInt8, 'a'.toUInt8])
        (mount s.image) [104, 105] := by
  have few : [helloFile].length + 1 < ninodes := by decide
  have all := lookup_of_mkfs (fun _ _ => -1) rootino few (by decide)
    (by decide) (by unfold NotDots; decide)
  obtain ⟨s, done⟩ := all.1 (by unfold Named; decide) (by decide)
  have found := (all.2 s done helloFile (List.mem_singleton_self _)).2 (by decide)
  exact ⟨s, done, found⟩

/-- A lookup that finds the root directory yields no file. -/
theorem not_yields_root {s : State} {bytes : Nat → List UInt8} {devsw : UInt16 → UInt32 → Int}
    {lookup : Fs (Option Nat)} {contents : List UInt8} (finished : Finished s bytes)
    (spec : wp (fun _ => False) lookup
      (fun result t => result = some rootino ∧ Mounted s.image t ∧ 0 < t.ref rootino)
      (mount s.image)) :
    ¬ Yields devsw lookup (mount s.image) contents := by
  rintro ⟨i, t, u, found, locked, type, -⟩
  obtain ⟨isRoot, mounted, counted⟩ := post_of_wp spec found
  obtain rfl : i = rootino := Option.some.inj isRoot
  have locks : wp (fun _ => False) (ilock rootino) _ t :=
    ilock_spec mounted counted (root_fields finished).1
  obtain ⟨mounted', valid, -⟩ := post_of_wp locks locked
  obtain ⟨addrs, isDin⟩ := finished.root
  have isDir : (u.inode rootino).type = tDir := by
    rw [mounted'.inode rootino valid, isDin]
  rw [isDir] at type
  exact absurd type (by decide)

/-- A file whose name without the `_` is that of an entry of the directory
itself. -/
def dotFile : HostFile where
  name := ['_'.toUInt8, '.'.toUInt8]
  reads := [[120]]
  terminated := by decide
  chunks := by decide

/-- The name of this file is looked up as the root directory. -/
theorem dotFile_hidden :
    [dotFile].length + 1 < ninodes ∧ nmeta + blocksNeeded [dotFile] ≤ fssize ∧
      ([dotFile].map HostFile.entryName).Nodup ∧
      ∃ s, mkfs [dotFile] = .ok s ∧
        ¬ Yields (fun _ _ => -1) (lookupRoot (fun _ _ => -1) dotFile.entryName) (mount s.image)
          dotFile.contents ∧
        ¬ Yields (fun _ _ => -1) (namei (fun _ _ => -1) rootino ('/'.toUInt8 :: dotFile.entryName))
          (mount s.image) dotFile.contents := by
  have room : [dotFile].length + 2 ≤ ninodes := by decide
  have blocks : nmeta + blocksNeeded [dotFile] ≤ fssize := by decide
  refine ⟨by decide, blocks, by decide, ?_⟩
  obtain ⟨s, done⟩ := mkfs_ends room (by unfold Named; decide)
    (fits_of_blocks room blocks (by decide))
  have finished := finished_of_mkfs done room
  have found : (rootEntries [dotFile]).find?
      (fun entry => entry.2.take dirsiz = dotFile.entryName) = some (rootino, ['.'.toUInt8]) := by
    decide
  refine ⟨s, done, ?_, ?_⟩
  · exact not_yields_root finished (lookupRoot_spec finished room (by decide) (by decide) found)
  · exact not_yields_root finished
      (namei_spec rootino finished room (by decide) (by decide) (by decide) (by decide) found)

end Xv6.Mkfs
