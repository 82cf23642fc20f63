import Xv6.FailedCalls
import Xv6.PathResolution

/-!
# Entries under new names

`link`, `open` with `O_CREATE`, `mkdir` and `mknod` make an entry in a directory that
has none of that name.  The entry goes into a free slot, or behind the last one as long
as the directory has fewer than `MAXFILE` blocks; the calls stop the kernel in a
directory without room.
-/

namespace Xv6.Fs

/-! ## Inserting an entry -/

/-- The slots that are in use. -/
def slots (dirents : List Dirent) : Nat :=
  dirents.countP fun de => de.inum ≠ 0

theorem length_insertDirent (new : Dirent) (dirents : List Dirent) :
    (insertDirent new dirents).length = max dirents.length (slots dirents + 1) := by
  induction dirents with
  | nil => rfl
  | cons slot rest ih =>
      rw [insertDirent]
      have least := List.countP_le_length (p := fun de : Dirent => de.inum ≠ 0) (l := rest)
      split
      next free =>
          rw [slots, List.countP_cons_of_neg (by simp [free]), List.length_cons,
            List.length_cons]
          omega
      next used =>
          rw [slots, List.countP_cons_of_pos (by simp [used]), List.length_cons,
            List.length_cons, ih, slots]
          omega

variable {name other : Name} {inum off : Nat} {dirents : List Dirent}

/-- The new entry is found. -/
theorem dirlookupFrom_insertDirent_self (used : inum ≠ 0)
    (absent : dirlookupFrom name off dirents = none) :
    (dirlookupFrom name off (insertDirent ⟨inum, name⟩ dirents)).map Prod.fst = some inum := by
  induction dirents generalizing off with
  | nil => simp [insertDirent, dirlookupFrom, used]
  | cons slot rest ih =>
      rw [dirlookupFrom] at absent
      split at absent
      case isTrue => cases absent
      case isFalse different =>
        rw [insertDirent]
        split
        · simp [dirlookupFrom, used]
        · rw [dirlookupFrom, if_neg different, ih absent]

/-- The entries under other names are where they were. -/
theorem dirlookupFrom_insertDirent_of_ne (differ : other ≠ name) :
    dirlookupFrom other off (insertDirent ⟨inum, name⟩ dirents) =
      dirlookupFrom other off dirents := by
  induction dirents generalizing off with
  | nil => simp [insertDirent, dirlookupFrom, differ.symm]
  | cons slot rest ih =>
      rw [insertDirent]
      split
      next free => simp [dirlookupFrom, differ.symm, free]
      next => rw [dirlookupFrom, dirlookupFrom, ih]

end Xv6.Fs

namespace Xv6.Calls

open StateTriples
open LabelledRuns (run)
open Fs (FileType Name ninode maxDirents rootino dirlookupFrom insertDirent slots elements)

variable {sound : Prop} {files : Files} {refs base : Ip → Nat} {locked : Locks} {ops : Nat}
  {o s : State} {ip dp cwd : Ip} {p : Proc}

/-! ## Halts of the inode layer -/

/-- The panics of `dirlink` and of `create` after it are not allowed. -/
def Inner (halt : Halt) : Prop :=
  halt ≠ .dirlink ∧ halt ≠ .createDirlink

theorem iget_inner (dev inum : Nat) : Fails Inner (iget dev inum) := by
  intro s
  simp only [iget, wp_bind, wp_get]
  split
  · trivial
  · trivial
  · exact ⟨by decide, by decide⟩

theorem ilock_inner (ip : Ip) : Fails Inner (ilock ip) := by
  intro s
  simp only [ilock, acquiresleep, fill, wp_bind, wp_get]
  split
  · exact ⟨by decide, by decide⟩
  · simp only [wp_bind, wp_get]
    split
    · exact ⟨by decide, by decide⟩
    · simp only [wp_set]
      split
      · trivial
      · simp only [wp_bind, wp_set]
        split
        · exact ⟨by decide, by decide⟩
        · trivial

theorem iunlock_inner (ip : Ip) : Fails Inner (iunlock ip) := by
  intro s
  simp only [iunlock, releasesleep, wp_bind, wp_get]
  split
  · exact ⟨by decide, by decide⟩
  · trivial

theorem iput_inner (ip : Ip) : Fails Inner (iput ip) := by
  intro s
  rw [wp_iput]
  split
  · exact ⟨by decide, by decide⟩
  · trivial

theorem iunlockput_inner (ip : Ip) : Fails Inner (iunlockput ip) :=
  .bind (iunlock_inner ip) fun _ => iput_inner ip

theorem nodeOf_inner (ip : Ip) : Fails Inner (nodeOf ip) :=
  fun _ => trivial

theorem dirlookup_inner (dp : Ip) (name : Name) : Fails Inner (dirlookup dp name) := by
  refine .bind (nodeOf_inner dp) fun node => ?_
  split
  · exact fun _ => ⟨by decide, by decide⟩
  · split
    · exact .pure _
    · refine .bind (fun _ => trivial) fun dev => ?_
      exact .bind (iget_inner _ _) fun _ => .pure _

theorem namexFrom_inner (parent : Bool) (names : List Name) (ip : Ip) :
    Fails Inner (namexFrom parent ip names) := by
  induction names generalizing ip with
  | nil =>
      rw [namexFrom]
      split
      · exact .bind (iput_inner ip) fun _ => .pure _
      · exact .pure _
  | cons name rest ih =>
      rw [namexFrom]
      refine .bind (ilock_inner ip) fun _ => .bind (nodeOf_inner ip) fun node => ?_
      split
      · exact .bind (iunlockput_inner ip) fun _ => .pure _
      · split
        · exact .bind (iunlock_inner ip) fun _ => .pure _
        · refine .bind (dirlookup_inner ip name) fun found => ?_
          split
          · exact .bind (iunlockput_inner ip) fun _ => .pure _
          · exact .bind (iunlockput_inner ip) fun _ => ih _

theorem namex_inner (cwd : Ip) (path : List Char) (parent : Bool) :
    Fails Inner (namex cwd path parent) := by
  rw [namex]
  split
  · exact .bind (iget_inner _ _) fun ip => namexFrom_inner parent _ ip
  · exact .bind (fun _ => trivial) fun ip => namexFrom_inner parent _ ip

/-! ## The directory that gets the entry -/

/-- A directory has room for one entry more: it has no more blocks than an inode may
have, and not all slots of the largest directory are in use. -/
def Dinode.Room (node : Dinode) : Prop :=
  node.dirents.length ≤ maxDirents ∧ slots node.dirents < maxDirents

instance (node : Dinode) : Decidable node.Room :=
  inferInstanceAs (Decidable (_ ∧ _))

theorem Dinode.room_iff (node : Dinode) (new : Fs.Dirent) :
    node.Room ↔ (insertDirent new node.dirents).length ≤ maxDirents := by
  rw [Fs.length_insertDirent, Nat.max_le]
  rfl

theorem Dinode.Room.of_dirents {node node' : Dinode} (same : node'.dirents = node.dirents)
    (room : node.Room) : node'.Room := by
  rwa [Dinode.Room, same]

/-- The directory has one entry more, which leads to the inode. -/
def Entered (before after : Nat → Nat → Dinode) (dev dp : Nat) (name : Name) (inum : Nat) :
    Prop :=
  lookup after dev dp name = some inum ∧
    ∀ other, other ≠ name → lookup after dev dp other = lookup before dev dp other

theorem entered_of_insert {before after : Nat → Nat → Dinode} {dev d inum : Nat} {name : Name}
    (isDir : (before dev d).type = .dir) (absent : lookup before dev d name = none)
    (used : inum ≠ 0) (type : (after dev d).type = .dir)
    (dirents : (after dev d).dirents = insertDirent ⟨inum, name⟩ (before dev d).dirents) :
    Entered before after dev d name inum := by
  rw [lookup, if_pos isDir, Option.map_eq_none_iff] at absent
  refine ⟨?_, fun other differ => ?_⟩
  · rw [lookup, if_pos type, dirents]
    exact Fs.dirlookupFrom_insertDirent_self used absent
  · rw [lookup, lookup, if_pos type, if_pos isDir, dirents,
      Fs.dirlookupFrom_insertDirent_of_ne differ]

/-- A halt of a call that makes an entry: it is not for a name that is there after all,
for the directory only if that is `full`, and for nothing else if the call is `safe`. -/
structure Refuses (safe full : Prop) (halt : Halt) : Prop where
  notCreate : halt ≠ .createDirlink
  dirlink : halt = .dirlink → full
  only : safe → halt = .dirlink

section Refusals

variable {safe full : Prop} {Result : Type} {program : Sys Result}
  {post : Result → State → Prop}

/-- A part of the call that halts only if the call is not safe. -/
theorem wp_endsIfSafe (inner : Fails Inner program)
    (runs : wp (fun _ => ¬ safe) program (fun _ _ => True) s) (spec : wp Any program post s) :
    wp (Refuses safe full) program post s := by
  have both := wp_both (wp_both (inner s) runs) spec
  refine wp_mono (wp_allow both fun halt refused => ?_) fun _ _ ended => ended.2
  obtain ⟨⟨inner, unsafeCall⟩, -⟩ := refused
  exact ⟨inner.2, fun isDirlink => absurd isDirlink inner.1, fun holds => absurd holds unsafeCall⟩

/-- A part of the call that does not halt. -/
theorem wp_ends (runs : wp (fun _ => False) program (fun _ _ => True) s)
    (spec : wp Any program post s) : wp (Refuses safe full) program post s :=
  wp_mono (wp_allow (wp_and runs spec) nofun) fun _ _ ended => ended.2

end Refusals

theorem dirlookup_absent {allowed : Halt → Prop} {name : Name}
    (isDir : (s.icache dp).node.type = .dir)
    (absent : dirlookupFrom name 0 (s.icache dp).node.dirents = none) :
    wp allowed (dirlookup dp name) (fun found t => found = none ∧ t = s) s := by
  simp only [dirlookup, nodeOf, wp_bind, wp_get, wp_pure, isDir, ne_eq, not_true, if_false,
    absent, and_self]

/-- `dirlink` of a new name. -/
theorem dirlink_new {safe full : Prop} {name : Name} (inum : Nat)
    (isDir : (s.icache dp).node.type = .dir)
    (absent : dirlookupFrom name 0 (s.icache dp).node.dirents = none)
    (noRoom : ¬ (s.icache dp).node.Room → full) :
    wp (Refuses safe full) (dirlink dp name inum)
      (fun linked t => linked = true ∧ (s.icache dp).node.Room ∧
        Changed s dp { (s.icache dp).node with
          dirents := insertDirent ⟨inum, name⟩ (s.icache dp).node.dirents } t) s := by
  simp only [dirlink, wp_bind]
  refine wp_mono (dirlookup_absent isDir absent) fun found t looked => ?_
  obtain ⟨rfl, rfl⟩ := looked
  simp only [nodeOf, wp_bind, wp_get, wp_pure]
  split
  case isTrue full =>
    have tooLong := mt ((t.icache dp).node.room_iff ⟨inum, name⟩).mp (Nat.not_le.mpr full)
    exact ⟨by decide, fun _ => noRoom tooLong, fun _ => rfl⟩
  case isFalse fits =>
    have room := ((t.icache dp).node.room_iff ⟨inum, name⟩).mpr (Nat.not_lt.mp fits)
    rw [wp_bind]
    refine wp_mono (update_changes t dp _) fun _ u changed => ⟨rfl, room, changed⟩

/-! ## Making an inode -/

/-- The directory and the new inode of `create`, both locked. -/
structure Pair (files : Files) (refs : Ip → Nat) (locked : Locks) (ops : Nat) (dp ip : Ip)
    (dev d n : Nat) (parent child : Dinode) (s : State) : Prop where
  has : Has False files (bump (bump refs dp) ip)
    (Function.update (Function.update locked dp true) ip true) ops s
  parentDev : (s.icache dp).dev = dev
  parentInum : (s.icache dp).inum = d
  childDev : (s.icache ip).dev = dev
  childInum : (s.icache ip).inum = n
  parent : s.disk dev d = parent
  child : s.disk dev n = child

namespace Pair

variable {dev d n : Nat} {parent child node : Dinode} {t : State}

theorem parentNode (pair : Pair files refs locked ops dp ip dev d n parent child s) :
    (s.icache dp).node = parent := by
  obtain ⟨used, valid⟩ := pair.has.filled dp (lock_first locked dp ip)
  rw [(pair.has.coherent dp used valid).1, pair.parentDev, pair.parentInum, pair.parent]

theorem childNode (pair : Pair files refs locked ops dp ip dev d n parent child s) :
    (s.icache ip).node = child := by
  obtain ⟨used, valid⟩ := pair.has.filled ip (by simp)
  rw [(pair.has.coherent ip used valid).1, pair.childDev, pair.childInum, pair.child]

theorem changeParent (apart : d ≠ n)
    (pair : Pair files refs locked ops dp ip dev d n parent child s)
    (changed : Changed s dp node t)
    (has : Has False files (bump (bump refs dp) ip)
      (Function.update (Function.update locked dp true) ip true) ops t) :
    Pair files refs locked ops dp ip dev d n node child t := by
  refine ⟨has, ?_, ?_, ?_, ?_, ?_, ?_⟩
  · rw [changed.dev, pair.parentDev]
  · rw [changed.inum, pair.parentInum]
  · rw [changed.dev, pair.childDev]
  · rw [changed.inum, pair.childInum]
  · rw [changed.disk, pair.parentDev, pair.parentInum, State.setDisk_self]
  · rw [changed.disk, pair.parentDev, pair.parentInum,
      State.setDisk_of_ne _ _ fun same => apart same.2.symm, pair.child]

theorem changeChild (apart : d ≠ n)
    (pair : Pair files refs locked ops dp ip dev d n parent child s)
    (changed : Changed s ip node t)
    (has : Has False files (bump (bump refs dp) ip)
      (Function.update (Function.update locked dp true) ip true) ops t) :
    Pair files refs locked ops dp ip dev d n parent node t := by
  refine ⟨has, ?_, ?_, ?_, ?_, ?_, ?_⟩
  · rw [changed.dev, pair.parentDev]
  · rw [changed.inum, pair.parentInum]
  · rw [changed.dev, pair.childDev]
  · rw [changed.inum, pair.childInum]
  · rw [changed.disk, pair.childDev, pair.childInum,
      State.setDisk_of_ne _ _ fun same => apart same.2, pair.parent]
  · rw [changed.disk, pair.childDev, pair.childInum, State.setDisk_self]

theorem updateParent {allowed : Halt → Prop} (apart : d ≠ n) {change : Dinode → Dinode}
    (type : ∀ node, (change node).type = node.type)
    (pair : Pair files refs locked ops dp ip dev d n parent child s) :
    wp allowed (update dp change)
      (fun _ t => Pair files refs locked ops dp ip dev d n (change parent) child t) s := by
  have held := lock_first locked dp ip
  refine wp_mono (wp_has (update_changes s dp change) (update_spec held type pair.has))
    fun _ t updated => ?_
  have changed := pair.changeParent apart updated.1 updated.2
  rwa [pair.parentNode] at changed

theorem updateChild {allowed : Halt → Prop} (apart : d ≠ n) {change : Dinode → Dinode}
    (type : ∀ node, (change node).type = node.type)
    (pair : Pair files refs locked ops dp ip dev d n parent child s) :
    wp allowed (update ip change)
      (fun _ t => Pair files refs locked ops dp ip dev d n parent (change child) t) s := by
  refine wp_mono (wp_has (update_changes s ip change) (update_spec (by simp) type pair.has))
    fun _ t updated => ?_
  have changed := pair.changeChild apart updated.1 updated.2
  rwa [pair.childNode] at changed

variable {safe full : Prop} {name : Name}

theorem dirlinkParent (pair : Pair files refs locked ops dp ip dev d n parent child s)
    (apart : d ≠ n) (inum : Nat) (isDir : parent.type = .dir)
    (absent : dirlookupFrom name 0 parent.dirents = none) (noRoom : ¬ parent.Room → full) :
    wp (Refuses safe full) (dirlink dp name inum)
      (fun linked t => linked = true ∧ parent.Room ∧
        Pair files refs locked ops dp ip dev d n
          { parent with dirents := insertDirent ⟨inum, name⟩ parent.dirents } child t) s := by
  have node := pair.parentNode
  subst node
  have held := lock_first locked dp ip
  refine wp_mono (wp_has (dirlink_new inum isDir absent noRoom)
    (dirlink_spec name inum (fun _ => trivial) held pair.has)) fun linked t written => ?_
  obtain ⟨⟨isTrue, room, changed⟩, has⟩ := written
  exact ⟨isTrue, room, pair.changeParent apart changed has⟩

theorem dirlinkChild (pair : Pair files refs locked ops dp ip dev d n parent child s)
    (apart : d ≠ n) (inum : Nat) (isDir : child.type = .dir)
    (absent : dirlookupFrom name 0 child.dirents = none) (room : child.Room) :
    wp (Refuses safe full) (dirlink ip name inum)
      (fun linked t => linked = true ∧
        Pair files refs locked ops dp ip dev d n parent
          { child with dirents := insertDirent ⟨inum, name⟩ child.dirents } t) s := by
  have node := pair.childNode
  subst node
  refine wp_mono (wp_has (dirlink_new inum isDir absent (absurd room))
    (dirlink_spec name inum (fun _ => trivial) (by simp) pair.has)) fun linked t written => ?_
  obtain ⟨⟨isTrue, -, changed⟩, has⟩ := written
  exact ⟨isTrue, pair.changeChild apart changed has⟩

/-- A new directory gets its first entries. -/
theorem createDots (apart : d ≠ n) (isDir : child.type = .dir) (empty : child.dirents = [])
    (pair : Pair files refs locked ops dp ip dev d n parent child s) :
    wp (Refuses safe full) (createDots dp ip)
      (fun _ t => ∃ dirents, Pair files refs locked ops dp ip dev d n
        { parent with nlink := parent.nlink + 1 } { child with dirents := dirents } t) s := by
  simp only [Calls.createDots, inumOf, wp_bind, wp_get, wp_pure]
  refine wp_mono (pair.updateParent apart fun _ => rfl) fun _ t counted => ?_
  have room : child.Room := by
    rw [Dinode.Room, empty]
    exact ⟨Nat.zero_le _, Nat.succ_pos _⟩
  have absent : dirlookupFrom ['.'] 0 child.dirents = none := by
    rw [empty]
    rfl
  refine wp_mono (counted.dirlinkChild apart _ isDir absent room) fun linked u first => ?_
  obtain ⟨rfl, first⟩ := first
  simp only [wp_bind, wp_get, wp_pure]
  rw [empty] at first
  have absent' (k : Nat) : dirlookupFrom ['.', '.'] 0 (insertDirent ⟨k, ['.']⟩ []) = none := by
    simp [insertDirent, dirlookupFrom]
  have room' (k : Nat) : Dinode.Room { child with dirents := insertDirent ⟨k, ['.']⟩ [] } := by
    refine ⟨(by decide : 1 ≤ maxDirents), ?_⟩
    exact Nat.lt_of_le_of_lt List.countP_le_length (by decide : 1 < maxDirents)
  refine wp_mono (first.dirlinkChild apart _ isDir (absent' _) (room' _)) fun linked v second => ?_
  obtain ⟨rfl, second⟩ := second
  exact ⟨_, second⟩

end Pair

/-- A new inode that `create` returns, locked, with an entry in the directory. -/
structure Entry (base : Ip → Nat) (o : State) (files : Files) (locked : Locks) (ops : Nat)
    (dev d : Nat) (name : Name) (type : FileType) (ip : Ip) (t : State) : Prop where
  has : Has False files (bump base ip) (Function.update locked ip true) ops t
  linked : (t.icache ip).node.nlink ≠ 0
  room : (o.disk dev d).Room
  made : ∃ n, (o.disk dev n).type = .free ∧ (t.disk dev n).type = type ∧
    Entered o.disk t.disk dev d name n

section Creation

variable {safe full : Prop} {dev d : Nat} {name : Name} {type : FileType}

/-- `ialloc`, and `ilock` of the new inode. -/
theorem ialloc_pair (typed : type ≠ .free) (unlocked : ∀ jp, locked jp = false)
    (steady : Steady base o files (bump base dp) (Function.update locked dp true) ops s)
    (isDev : (s.icache dp).dev = dev) (isInum : (s.icache dp).inum = d)
    (isDir : (o.disk dev d).type = .dir)
    (supplied : safe → (findFree o dev).isSome ∧ 0 < unused (bump base dp)) :
    wp (Refuses safe full) (ialloc dev type)
      (fun ip t => wp (Refuses safe full) (ilock ip)
        (fun _ u => ∃ n, n ≠ 0 ∧ (o.disk dev n).type = .free ∧ d ≠ n ∧ ip ≠ dp ∧
          Pair files base locked ops dp ip dev d n (o.disk dev d) ⟨type, 0, 0, 0, [], []⟩ u) t)
      s := by
  have sameFree : findFree s dev = findFree o dev := by
    rw [findFree, findFree, steady.calm.disk, steady.calm.ninodes]
  simp only [ialloc, wp_bind, wp_get, sameFree]
  split
  case h_1 none =>
    refine ⟨by decide, fun other => absurd other (by decide), fun holds => ?_⟩
    have some := (supplied holds).1
    rw [none] at some
    cases some
  case h_2 n found =>
    obtain ⟨positive, free⟩ : 1 ≤ n ∧ (o.disk dev n).type = .free := by
      simpa using List.find?_some found
    have apart : d ≠ n := by
      rintro rfl
      rw [isDir] at free
      cases free
    have free' : (s.disk dev n).type = .free := by rwa [steady.calm.disk]
    have allocated := steady.has.allocate free' ⟨type, 0, 0, 0, [], []⟩
    simp only [wp_bind, wp_set]
    have gets : wp (Refuses safe full) (iget dev n) _ _ :=
      wp_endsIfSafe (iget_inner dev n)
        (iget_runs dev n allocated fun inUse holds => by
          have left := (supplied holds).2
          rw [unused_eq_zero inUse] at left
          cases left)
        (wp_and (iget_calm dev n allocated) (iget_spec dev n (fun _ => trivial) allocated))
    refine wp_mono gets fun ip t got => ?_
    obtain ⟨⟨ipDev, ipInum, calm⟩, got⟩ := got
    have parent : 0 < bump base dp dp := by simp
    have differ : ip ≠ dp := by
      rintro rfl
      rw [calm.inum ip parent] at ipInum
      exact apart (isInum.symm.trans ipInum)
    have onDisk : t.disk dev n = ⟨type, 0, 0, 0, [], []⟩ := by
      rw [calm.disk, State.setDisk_self]
    have locks : wp (Refuses safe full) (ilock ip) _ t :=
      wp_ends (ilock_runs got (by simp) (by rw [Function.update_of_ne differ, unlocked ip])
        (by rwa [ipDev, ipInum, onDisk]))
        (wp_has (ilock_calm (bump (bump base dp) ip) t ip) (ilock_spec got))
    refine wp_mono locks fun _ u acquired => ?_
    obtain ⟨⟨-, still⟩, -, has⟩ := acquired
    have parent' := pos_of_bump ip parent
    refine ⟨n, Nat.pos_iff_ne_zero.mp positive, free, apart, differ, has, ?_, ?_, ?_, ?_, ?_, ?_⟩
    · rw [still.dev dp parent', calm.dev dp parent]
      exact isDev
    · rw [still.inum dp parent', calm.inum dp parent]
      exact isInum
    · rw [still.dev ip (by simp), ipDev]
    · rw [still.inum ip (by simp), ipInum]
    · rw [still.disk, calm.disk, State.setDisk_of_ne _ _ fun same => apart same.2,
        steady.calm.disk]
    · rw [still.disk, onDisk]

/-- The end of `create`, once the new inode is ready: its entry in the directory. -/
theorem linkNew_entry {n : Nat} {parent child : Dinode} {next : Bool → Sys (Option Ip)}
    (made : next true = do iunlockput dp; pure (some ip))
    (pair : Pair files base locked ops dp ip dev d n parent child s)
    (unlocked : ∀ jp, locked jp = false) (differ : ip ≠ dp) (nonzero : n ≠ 0)
    (free : (o.disk dev n).type = .free) (apart : d ≠ n)
    (isDir : (o.disk dev d).type = .dir) (absent : lookup o.disk dev d name = none)
    (noRoom : ¬ (o.disk dev d).Room → full) (parentType : parent.type = .dir)
    (dirents : parent.dirents = (o.disk dev d).dirents)
    (stays : 0 < base dp ∨ parent.nlink ≠ 0) (childType : child.type = type)
    (linked : child.nlink ≠ 0) :
    wp (Refuses safe full) (do
        let inum ← inumOf ip
        let linked ← dirlink dp name inum
        next linked)
      (fun found t => ∃ ip, found = some ip ∧ locked ip = false ∧
        Entry base o files locked ops dev d name type ip t) s := by
  have absent' : dirlookupFrom name 0 parent.dirents = none := by
    rw [lookup, if_pos isDir, Option.map_eq_none_iff] at absent
    rwa [dirents]
  simp only [inumOf, wp_bind, wp_get, wp_pure, pair.childInum]
  refine wp_mono (pair.dirlinkParent apart n parentType absent'
    fun none => noRoom fun room => none (room.of_dirents dirents)) fun added t written => ?_
  obtain ⟨rfl, room, written⟩ := written
  rw [made, wp_bind]
  have has := written.has
  rw [bump_comm] at has
  have held := lock_first locked dp ip
  have keeps : Stays (bump base ip) dp t := by
    refine stays.imp (pos_of_bump ip) fun linked => ?_
    rwa [written.parentNode]
  refine wp_mono (wp_ends (iunlockput_runs has held)
    (wp_has (iunlockput_calm has keeps) (iunlockput_spec has))) fun _ u put => ?_
  obtain ⟨calm, has⟩ := put
  rw [unlock_first (unlocked dp) (by rw [Function.update_of_ne differ, unlocked ip])] at has
  have childDev := calm.dev ip Nat.one_pos
  have childInum := calm.inum ip Nat.one_pos
  rw [written.childDev] at childDev
  rw [written.childInum] at childInum
  refine ⟨ip, rfl, unlocked ip, has, ?_, room.of_dirents dirents.symm, n, free, ?_, ?_⟩
  · obtain ⟨used, valid⟩ := has.filled ip (by simp)
    rw [(has.coherent ip used valid).1, childDev, childInum, calm.disk, written.child]
    exact linked
  · rw [calm.disk, written.child, childType]
  · refine entered_of_insert isDir absent nonzero ?_ ?_
    · rw [calm.disk, written.parent]
      exact parentType
    · rw [calm.disk, written.parent, ← dirents]

/-- `create` makes the inode and its entry. -/
theorem createNew_entry (major minor : Int) (typed : type ≠ .free)
    (unlocked : ∀ jp, locked jp = false) (guarded : Protected base o)
    (steady : Steady base o files (bump base dp) (Function.update locked dp true) ops s)
    (isDev : (s.icache dp).dev = dev) (isInum : (s.icache dp).inum = d)
    (isDir : (o.disk dev d).type = .dir) (absent : lookup o.disk dev d name = none)
    (counted : 0 ≤ (o.disk dev d).nlink)
    (supplied : safe → (findFree o dev).isSome ∧ 0 < unused (bump base dp))
    (noRoom : ¬ (o.disk dev d).Room → full) :
    wp (Refuses safe full) (createNew dp name type major minor)
      (fun found t => ∃ ip, found = some ip ∧ locked ip = false ∧
        Entry base o files locked ops dev d name type ip t) s := by
  have stays : 0 < base dp ∨ (o.disk dev d).nlink ≠ 0 := by
    have keeps := steady.stays (guarded _ _) (fun _ => id) (steady.has.filled dp (by simp)).2
    rwa [Stays, steady.node dp (by simp), isDev, isInum] at keeps
  simp only [createNew, devOf, wp_bind, wp_get, wp_pure, isDev]
  refine wp_mono (ialloc_pair typed unlocked steady isDev isInum isDir supplied)
    fun ip t allocated => wp_mono allocated fun _ u acquired => ?_
  obtain ⟨n, nonzero, free, apart, differ, pair⟩ := acquired
  refine wp_mono (pair.updateChild apart fun _ => rfl) fun _ v pair => ?_
  split
  case isTrue directory =>
    rw [wp_bind]
    refine wp_mono (pair.createDots apart directory rfl) fun _ w dots => ?_
    obtain ⟨dirents, dots⟩ := dots
    refine linkNew_entry (by rfl) dots unlocked differ nonzero free apart isDir absent noRoom
      isDir rfl (.inr ?_) rfl Int.one_ne_zero
    dsimp only
    omega
  case isFalse =>
    exact linkNew_entry (by rfl) pair unlocked differ nonzero free apart isDir absent noRoom
      isDir rfl stays rfl Int.one_ne_zero

end Creation

/-! ## The calls -/

/-- The directory that a path leads to up to its last element, and that element. -/
def State.parent (s : State) (cwd : Ip) (path : List Char) : Option (Nat × Name) :=
  parentOf s.disk (s.start cwd path).1 (s.start cwd path).2 (elements path)

/-- The last element of the path is a new name in its directory. -/
def State.NewName (s : State) (cwd : Ip) (path : List Char) : Prop :=
  ∀ entry ∈ s.parent cwd path,
    lookup s.disk (s.start cwd path).1 entry.1 entry.2 = none

/-- The directory that the path leads to up to its last element has room. -/
def State.HasRoom (s : State) (cwd : Ip) (path : List Char) : Prop :=
  ∀ entry ∈ s.parent cwd path, (s.disk (s.start cwd path).1 entry.1).Room

instance (s : State) (cwd : Ip) (path : List Char) : Decidable (s.NewName cwd path) :=
  inferInstanceAs (Decidable (∀ _ ∈ _, _))

instance (s : State) (cwd : Ip) (path : List Char) : Decidable (s.HasRoom cwd path) :=
  inferInstanceAs (Decidable (∀ _ ∈ _, _))

/-- Paths start in directories. -/
def State.Grounded (s : State) (cwd : Ip) : Prop :=
  (s.disk rootdev rootino).type = .dir ∧
    (s.disk (s.icache cwd).dev (s.icache cwd).inum).type = .dir

instance (s : State) (cwd : Ip) : Decidable (s.Grounded cwd) :=
  inferInstanceAs (Decidable (_ ∧ _))

theorem State.Grounded.start (grounded : s.Grounded cwd) (path : List Char) :
    (s.disk (s.start cwd path).1 (s.start cwd path).2).type = .dir := by
  unfold State.start
  split
  · exact grounded.1
  · exact grounded.2

/-- What `namex` needs not to stop the kernel. -/
structure Walkable (base : Ip → Nat) (o : State) : Prop where
  allocated : ∀ dev inum name next, lookup o.disk dev inum name = some next →
    (o.disk dev next).type ≠ .free
  spare : 3 ≤ unused base

theorem Full.unused_le {refs : Ip → Nat} {halt : Halt} (full : Full refs halt) :
    unused refs ≤ 1 := by
  refine Finset.card_le_one.mpr fun ip free jp free' => ?_
  exact full.2 ip jp (Finset.mem_filter.mp free).2 (Finset.mem_filter.mp free').2

section Creating

variable {safe : Prop} {path : List Char} {type : FileType}

/-- `namex` from a directory, in a call that halts only if it is not safe. -/
theorem namex_endsIfSafe {full : Prop} (parent : Bool) (guarded : Protected base o)
    (start : (o.disk (o.start cwd path).1 (o.start cwd path).2).type = .dir)
    (here : 0 < base cwd) (covers : Covers base refs)
    (allocated : safe → ∀ dev inum name next, lookup o.disk dev inum name = some next →
      (o.disk dev next).type ≠ .free)
    (spare : safe → 2 ≤ unused refs)
    (steady : Steady base o files refs (fun _ => false) ops s) :
    wp (Refuses safe full) (namex cwd path parent)
      (Resolved base o files refs (fun _ => false) ops parent (o.start cwd path).1
        (o.start cwd path).2 (elements path)) s := by
  have walked := namex_resolved safe
    (fun dev inum name next found => ⟨fun holds => allocated holds _ _ _ _ found, guarded _ _⟩)
    (fun _ _ => rfl) path parent here covers ⟨fun _ => start ▸ nofun, guarded _ _⟩ steady
  refine wp_endsIfSafe (namex_inner cwd path parent) ?_ (wp_allow walked fun _ _ => trivial)
  refine wp_mono (wp_allow walked fun halt full holds => ?_) fun _ _ _ => trivial
  have few := (full holds).unused_le
  have left := spare holds
  omega

/-- `create` of a new name makes the inode and its entry, or finds no directory. -/
theorem create_entry (major minor : Int) (typed : type ≠ .free) (guarded : Protected base o)
    (grounded : o.Grounded cwd) (counted : ∀ dev inum, 0 ≤ (o.disk dev inum).nlink)
    (here : 0 < base cwd) (new : o.NewName cwd path) (walkable : safe → Walkable base o)
    (freeInode : safe → (findFree o (o.start cwd path).1).isSome)
    (steady : Steady base o files base (fun _ => false) ops s) :
    wp (Refuses safe ((o.parent cwd path).isSome ∧ ¬ o.HasRoom cwd path))
      (create cwd path type major minor)
      (fun found t => match found with
        | none => o.parent cwd path = none ∧ Steady base o files base (fun _ => false) ops t
        | some ip => ∃ d name, o.parent cwd path = some (d, name) ∧
            Entry base o files (fun _ => false) ops (o.start cwd path).1 d name type ip t) s := by
  simp only [create, nameiparent, wp_bind]
  refine wp_mono (namex_endsIfSafe true guarded (grounded.start path) here (fun _ => id)
    (fun holds => (walkable holds).allocated) (fun holds => ?_) steady) fun found t walked => ?_
  · have left := (walkable holds).spare
    omega
  cases found with
  | none => exact walked
  | some entry =>
      obtain ⟨dp, name⟩ := entry
      obtain ⟨there, isDev, walked⟩ := walked
      have parent : o.parent cwd path = some ((t.icache dp).inum, name) := there
      obtain ⟨-, -, isDir⟩ := parentOf_eq_some parent
      have absent := new _ parent
      have onDisk : (t.disk (t.icache dp).dev (t.icache dp).inum).type ≠ .free := by
        rw [walked.calm.disk, isDev, isDir]
        decide
      simp only [wp_bind]
      refine wp_mono (wp_ends (ilock_runs walked.has (by simp) rfl onDisk)
        (ilock_steady walked)) fun _ u acquired => ?_
      obtain ⟨-, calm, acquired⟩ := acquired
      have dev : (u.icache dp).dev = (o.start cwd path).1 := by
        rw [calm.dev dp Nat.one_pos, isDev]
      have inum := calm.inum dp Nat.one_pos
      have node := acquired.node dp (by simp)
      rw [dev, inum] at node
      have absent' : dirlookupFrom name 0 (u.icache dp).node.dirents = none := by
        rw [lookup, if_pos isDir, Option.map_eq_none_iff] at absent
        rw [node]
        exact absent
      refine wp_mono (dirlookup_absent (by rw [node, isDir]) absent') fun found v looked => ?_
      obtain ⟨rfl, rfl⟩ := looked
      refine wp_mono (createNew_entry major minor typed (fun _ => rfl) guarded acquired dev inum
        isDir absent (counted _ _) (fun holds => ⟨freeInode holds, ?_⟩) fun noRoom => ?_)
        fun found w made => ?_
      · have left := (walkable holds).spare
        by_contra none
        have few : unused base ≤ 1 := unused_le_of_bump (Nat.not_lt.mp none)
        omega
      · rw [parent]
        exact ⟨rfl, fun room => noRoom (room _ parent)⟩
      · obtain ⟨ip, rfl, -, made⟩ := made
        exact ⟨_, name, parent, made⟩

end Creating

/-! ## Links -/

section Linking

variable {disk disk' : Nat → Nat → Dinode} {dev inum n : Nat}

/-- The directories of two disks are the same. -/
def SameTree (disk disk' : Nat → Nat → Dinode) : Prop :=
  ∀ dev inum, (disk' dev inum).type = (disk dev inum).type ∧
    (disk' dev inum).dirents = (disk dev inum).dirents

theorem SameTree.lookup (same : SameTree disk disk') (dev inum : Nat) (name : Name) :
    lookup disk' dev inum name = lookup disk dev inum name := by
  rw [Calls.lookup, Calls.lookup, (same dev inum).1, (same dev inum).2]

theorem SameTree.parentOf (same : SameTree disk disk') (names : List Name) :
    parentOf disk' dev inum names = parentOf disk dev inum names := by
  induction names generalizing inum with
  | nil => rfl
  | cons name rest ih =>
      rw [Calls.parentOf, Calls.parentOf, (same dev inum).1, same.lookup]
      cases Calls.lookup disk dev inum name with
      | none => rfl
      | some next => simp only [ih]

theorem reached_allocated (allocated : ∀ inum name next, lookup disk dev inum name = some next →
    (disk dev next).type ≠ .free) (start : (disk dev inum).type ≠ .free) {names : List Name}
    (there : reached disk dev inum names = some n) : (disk dev n).type ≠ .free := by
  induction names generalizing inum with
  | nil =>
      cases there
      exact start
  | cons name rest ih =>
      rw [reached] at there
      split at there
      · cases there
      next next found => exact ih (allocated _ _ _ found) there

/-- A walk ends where it started, or at an inode that an entry leads to. -/
theorem reached_ne_zero {names : List Name} (there : reached disk dev inum names = some n) :
    n = inum ∨ n ≠ 0 := by
  induction names generalizing inum with
  | nil =>
      cases there
      exact .inl rfl
  | cons name rest ih =>
      rw [reached] at there
      split at there
      · cases there
      next next found =>
        rcases ih there with rfl | nonzero
        · rw [lookup] at found
          split at found
          · obtain ⟨⟨m, off⟩, present, rfl⟩ := Option.map_eq_some_iff.mp found
            obtain ⟨k, -, -, nonzero⟩ := Fs.dirlookupFrom_eq_some present
            exact .inr nonzero
          · cases found
        · exact .inr nonzero

theorem linkBad_ends (has : Has False files (bump refs ip) (fun _ => false) (ops + 1) s)
    (typed : (s.disk (s.icache ip).dev (s.icache ip).inum).type ≠ .free) :
    wp (fun _ => False) (linkBad ip) (fun value _ => value = -1) s := by
  simp only [linkBad, wp_bind]
  refine wp_mono (wp_has (ilock_runs has (by simp) rfl typed) (ilock_spec has))
    fun _ t acquired => ?_
  refine wp_mono (wp_has (update_changes t ip _)
    (update_spec (by simp) (fun _ => rfl) acquired.2.2)) fun _ u updated => ?_
  exact wp_mono (iunlockput_runs updated.2 (by simp)) fun _ _ _ => rfl

/-- The end of `sys_link`: the entry is made, or there is no directory for it. -/
theorem linkTo_entry {safe : Prop} {r : State} {new : List Char}
    (guarded : Protected (bump base ip) r) (grounded : r.Grounded cwd) (here : 0 < base cwd)
    (isDev : (r.icache ip).dev = dev) (isInum : (r.icache ip).inum = n) (nonzero : n ≠ 0)
    (notDir : (r.disk dev n).type ≠ .dir) (typed : (r.disk dev n).type ≠ .free)
    (counted : (r.disk dev n).nlink ≠ 0) (newName : r.NewName cwd new)
    (allocated : safe → ∀ dev inum name next, lookup r.disk dev inum name = some next →
      (r.disk dev next).type ≠ .free)
    (spare : safe → 2 ≤ unused (bump base ip))
    (steady : Steady (bump base ip) r files (bump base ip) (fun _ => false) (ops + 1) s) :
    wp (Refuses safe ((r.parent cwd new).isSome ∧ dev = (r.start cwd new).1 ∧
        ¬ r.HasRoom cwd new)) (linkTo cwd ip new)
      (fun value t => ((r.parent cwd new = none ∨ dev ≠ (r.start cwd new).1) ∧ value = -1) ∨
        (r.HasRoom cwd new ∧ ∃ d name, r.parent cwd new = some (d, name) ∧
          Entered r.disk t.disk (r.start cwd new).1 d name n)) s := by
  have mine : 0 < bump base ip ip := by simp
  have fails {t : State} (steady : Steady (bump base ip) r files (bump base ip) (fun _ => false)
      (ops + 1) t) : wp (fun _ => False) (linkBad ip) (fun value _ => value = -1) t := by
    refine linkBad_ends steady.has ?_
    rwa [steady.calm.disk, steady.calm.dev ip mine, steady.calm.inum ip mine, isDev, isInum]
  simp only [linkTo, nameiparent, wp_bind]
  refine wp_mono (namex_endsIfSafe true guarded (grounded.start new) (pos_of_bump ip here)
    (fun _ => id) allocated spare steady) fun found t walked => ?_
  cases found with
  | none =>
      exact wp_mono (wp_allow (fails walked.2) fun _ => False.elim)
        fun _ _ bad => .inl ⟨.inl walked.1, bad⟩
  | some entry =>
      obtain ⟨dp, name⟩ := entry
      obtain ⟨there, dpDev, walked⟩ := walked
      have parent : r.parent cwd new = some ((t.icache dp).inum, name) := there
      obtain ⟨-, -, isDir⟩ := parentOf_eq_some parent
      have absent := newName _ parent
      have onDisk : (t.disk (t.icache dp).dev (t.icache dp).inum).type ≠ .free := by
        rw [walked.calm.disk, dpDev, isDir]
        decide
      simp only [wp_bind]
      refine wp_mono (wp_ends (ilock_runs walked.has (by simp) rfl onDisk)
        (ilock_steady walked)) fun _ u acquired => ?_
      obtain ⟨-, calm, acquired⟩ := acquired
      have dev' : (u.icache dp).dev = (r.start cwd new).1 := by
        rw [calm.dev dp Nat.one_pos, dpDev]
      have inum' := calm.inum dp Nat.one_pos
      have keeps := acquired.stays (guarded _ _) (fun _ => id)
        (acquired.has.filled dp (by simp)).2
      have node := acquired.node dp (by simp)
      rw [dev', inum'] at node
      have ipDev : (u.icache ip).dev = dev := by rw [acquired.calm.dev ip mine, isDev]
      have ipInum : (u.icache ip).inum = n := by rw [acquired.calm.inum ip mine, isInum]
      simp only [devOf, inumOf, wp_bind, wp_get, wp_pure, dev', ipDev]
      split
      case isTrue other =>
        rw [wp_bind]
        refine wp_mono (wp_ends (iunlockput_runs acquired.has (by simp))
          (iunlockput_kept (fun _ => id) rfl (guarded _ _) acquired)) fun _ v put => ?_
        exact wp_mono (wp_allow (fails put.2) fun _ => False.elim)
          fun _ _ bad => .inl ⟨.inr (Ne.symm other), bad⟩
      case isFalse same =>
        rw [not_not] at same
        rw [same] at node absent isDir
        have absent' : dirlookupFrom name 0 (u.icache dp).node.dirents = none := by
          rw [lookup, if_pos isDir, Option.map_eq_none_iff] at absent
          rw [node]
          exact absent
        have noRoom (none : ¬ (u.icache dp).node.Room) : (r.parent cwd new).isSome ∧
            dev = (r.start cwd new).1 ∧ ¬ r.HasRoom cwd new := by
          rw [parent]
          refine ⟨rfl, same.symm, fun room => none ?_⟩
          rw [node, ← same]
          exact room _ parent
        simp only [wp_bind, wp_get, wp_pure, ipInum]
        refine wp_mono (wp_has (dirlink_new n (by rw [node, isDir]) absent' noRoom)
          (dirlink_spec name n (fun _ => trivial) (Function.update_self ..) acquired.has))
          fun linked v written => ?_
        obtain ⟨⟨rfl, room, changed⟩, has⟩ := written
        have apart : ¬ (dev = dev ∧ n = (t.icache dp).inum) := by
          rintro ⟨-, rfl⟩
          exact notDir isDir
        have keeps' : Stays (bump base ip) dp v := by
          refine keeps.imp_right fun linked => ?_
          rwa [changed.node]
        simp only [wp_bind]
        refine wp_mono (wp_ends (iunlockput_runs has (by simp))
          (wp_has (iunlockput_calm has keeps') (iunlockput_locked rfl has))) fun _ w put => ?_
        obtain ⟨calm', has'⟩ := put
        have atDir : w.disk dev (t.icache dp).inum = { r.disk dev (t.icache dp).inum with
            dirents := insertDirent ⟨n, name⟩ (r.disk dev (t.icache dp).inum).dirents } := by
          rw [calm'.disk, changed.disk, dev', inum', same, State.setDisk_self, node]
        have atFile : w.disk dev n = r.disk dev n := by
          rw [calm'.disk, changed.disk, dev', inum', same, State.setDisk_of_ne _ _ apart,
            acquired.calm.disk]
        have ipDev' : (w.icache ip).dev = dev := by
          rw [calm'.dev ip Nat.one_pos, changed.dev, ipDev]
        have ipInum' : (w.icache ip).inum = n := by
          rw [calm'.inum ip Nat.one_pos, changed.inum, ipInum]
        have linked (valid : (w.icache ip).valid = true) : Stays base ip w := by
          right
          rw [(has'.coherent ip mine valid).1, ipDev', ipInum', atFile]
          exact counted
        refine wp_mono (wp_ends (iput_runs has' rfl) (iput_calm has' linked)) fun _ x put' => ?_
        refine .inr ⟨fun entry member => ?_, _, name, parent, ?_⟩
        · rw [parent, Option.mem_some_iff] at member
          subst member
          rw [← same] at node
          rwa [node] at room
        · rw [same]
          refine entered_of_insert isDir absent nonzero ?_ ?_
          · rw [put'.disk, atDir]
            exact isDir
          · rw [put'.disk, atDir]

/-- Paths lead to the same inodes. -/
structure Alike (cwd : Ip) (o r : State) : Prop where
  tree : SameTree o.disk r.disk
  dev : (r.icache cwd).dev = (o.icache cwd).dev
  inum : (r.icache cwd).inum = (o.icache cwd).inum

namespace Alike

variable {r : State}

theorem start (alike : Alike cwd o r) (path : List Char) : r.start cwd path = o.start cwd path := by
  rw [State.start, State.start, alike.dev, alike.inum]

theorem parent (alike : Alike cwd o r) (path : List Char) :
    r.parent cwd path = o.parent cwd path := by
  rw [State.parent, State.parent, alike.start, alike.tree.parentOf]

theorem grounded (alike : Alike cwd o r) (grounded : o.Grounded cwd) : r.Grounded cwd := by
  rw [State.Grounded, (alike.tree _ _).1, (alike.tree _ _).1, alike.dev, alike.inum]
  exact grounded

theorem newName (alike : Alike cwd o r) {path : List Char} (new : o.NewName cwd path) :
    r.NewName cwd path := by
  intro entry member
  rw [alike.start, alike.tree.lookup]
  exact new entry (alike.parent path ▸ member)

theorem hasRoom (alike : Alike cwd o r) (path : List Char) :
    r.HasRoom cwd path ↔ o.HasRoom cwd path := by
  have dirents (dp : Nat) : (r.disk (o.start cwd path).1 dp).Room ↔
      (o.disk (o.start cwd path).1 dp).Room := by
    rw [Dinode.Room, Dinode.Room, (alike.tree _ _).2]
  simp only [State.HasRoom, alike.parent, alike.start, dirents]

end Alike

/-- `sys_link` has counted the new link. -/
theorem alike_of_changed {t : State} (here : 0 < base cwd)
    (steady : Steady base o files (bump base ip) (Function.update locked ip true) ops s)
    (changed : Changed s ip { (s.icache ip).node with nlink := (s.icache ip).node.nlink + 1 } t) :
    Alike cwd o t := by
  refine ⟨fun dev inum => ?_, ?_, ?_⟩
  · by_cases place : dev = (s.icache ip).dev ∧ inum = (s.icache ip).inum
    · obtain ⟨rfl, rfl⟩ := place
      rw [changed.disk, State.setDisk_self, steady.node ip (by simp)]
      exact ⟨rfl, rfl⟩
    · rw [changed.disk, State.setDisk_of_ne _ _ place, steady.calm.disk]
      exact ⟨rfl, rfl⟩
  · rw [changed.dev, steady.calm.dev cwd here]
  · rw [changed.inum, steady.calm.inum cwd here]

/-- The old path of a link leads to a file, on the device of the new one, and the new path
leads to a directory up to its last element. -/
def State.Links (s : State) (cwd : Ip) (old new : List Char) : Prop :=
  (s.parent cwd new).isSome ∧ (s.start cwd old).1 = (s.start cwd new).1 ∧
    ∃ n ∈ reached s.disk (s.start cwd old).1 (s.start cwd old).2 (elements old),
      (s.disk (s.start cwd old).1 n).type ≠ .dir

instance (s : State) (cwd : Ip) (old new : List Char) : Decidable (s.Links cwd old new) :=
  inferInstanceAs (Decidable (_ ∧ _ ∧ ∃ _ ∈ _, _))

/-- `link` under a new name makes the entry, or finds no file or no directory. -/
theorem sysLink_entry {safe : Prop} {old new : List Char} (guarded : Protected base o)
    (grounded : o.Grounded cwd) (counted : ∀ dev inum, 0 ≤ (o.disk dev inum).nlink)
    (here : 0 < base cwd) (newName : o.NewName cwd new) (walkable : safe → Walkable base o)
    (steady : Steady base o files base (fun _ => false) ops s) :
    wp (Refuses safe (o.Links cwd old new ∧ ¬ o.HasRoom cwd new))
      (sysLink cwd (some old) (some new))
      (fun value t => (¬ o.Links cwd old new ∧ value = -1) ∨
        (o.HasRoom cwd new ∧ ∃ d name n, o.parent cwd new = some (d, name) ∧
          Entered o.disk t.disk (o.start cwd new).1 d name n ∧
          reached o.disk (o.start cwd old).1 (o.start cwd old).2 (elements old) = some n)) s := by
  simp only [sysLink, namei, wp_bind]
  refine wp_mono (wp_ends trivial (beginOp_steady steady)) fun _ t begun => ?_
  refine wp_mono (namex_endsIfSafe false guarded (grounded.start old) here (fun _ => id)
    (fun holds => (walkable holds).allocated) (fun holds => ?_) begun) fun found u walked => ?_
  · have left := (walkable holds).spare
    omega
  cases found with
  | none =>
      have nothing : reached o.disk (o.start cwd old).1 (o.start cwd old).2 (elements old) =
          none := by simpa [target] using walked.1
      refine .inl ⟨fun links => ?_, rfl⟩
      obtain ⟨-, -, n, there, -⟩ := links
      rw [nothing] at there
      cases there
  | some entry =>
      obtain ⟨ip, element⟩ := entry
      obtain ⟨there, isDev, walked⟩ := walked
      obtain ⟨n, there, same⟩ := Option.map_eq_some_iff.mp there
      have isInum := (Prod.mk.inj same).1.symm
      have typed (holds : safe) : (o.disk (o.start cwd old).1 n).type ≠ .free :=
        reached_allocated (fun _ _ _ => (walkable holds).allocated _ _ _ _)
          (grounded.start old ▸ nofun) there
      simp only [wp_bind]
      refine wp_mono (wp_endsIfSafe (ilock_inner ip) (wp_mono (wp_when
        (fun holds => ilock_runs walked.has (by simp) rfl ?_) (wp_any _ u)) fun _ _ _ => trivial)
        (ilock_steady walked)) fun _ v acquired => ?_
      · rw [walked.calm.disk, isDev, isInum]
        exact typed holds
      obtain ⟨-, calm, acquired⟩ := acquired
      have vDev : (v.icache ip).dev = (o.start cwd old).1 := by
        rw [calm.dev ip Nat.one_pos, isDev]
      have vInum : (v.icache ip).inum = n := by rw [calm.inum ip Nat.one_pos, isInum]
      have node := acquired.node ip (by simp)
      rw [vDev, vInum] at node
      simp only [nodeOf, wp_bind, wp_get, wp_pure]
      split
      case isTrue isDir =>
        rw [node] at isDir
        rw [wp_bind]
        refine wp_mono (wp_ends (iunlockput_runs acquired.has (by simp))
          (iunlockput_kept (fun _ => id) rfl (guarded _ _) acquired)) fun _ w put => ?_
        refine .inl ⟨fun links => ?_, rfl⟩
        obtain ⟨-, -, m, there', notDir⟩ := links
        cases there.symm.trans there'
        exact notDir isDir
      case isFalse notDir =>
        rw [node] at notDir
        have used := (acquired.has.filled ip (by simp)).1
        have valid := (acquired.has.filled ip (by simp)).2
        have notFree := (acquired.has.coherent ip used valid).2
        rw [node] at notFree
        simp only [wp_bind]
        refine wp_mono (wp_has (update_changes v ip _)
          (update_spec (by simp) (fun _ => rfl) acquired.has)) fun _ w updated => ?_
        obtain ⟨changed, has⟩ := updated
        have alike := alike_of_changed here acquired changed
        have raised : Steady (bump base ip) w files (bump base ip) _ (ops + 1) w :=
          ⟨has, .refl _ w⟩
        refine wp_mono (wp_ends (iunlock_runs has (by simp)) (iunlock_steady rfl raised))
          fun _ x unlocked => ?_
        have wDev : (w.icache ip).dev = (o.start cwd old).1 := by rw [changed.dev, vDev]
        have wInum : (w.icache ip).inum = n := by rw [changed.inum, vInum]
        have nonzero : n ≠ 0 := by
          refine (reached_ne_zero there).resolve_left fun isStart => notDir ?_
          rw [isStart]
          exact grounded.start old
        have onDisk : w.disk (o.start cwd old).1 n =
            { o.disk (o.start cwd old).1 n with
              nlink := (o.disk (o.start cwd old).1 n).nlink + 1 } := by
          rw [changed.disk, vDev, vInum, State.setDisk_self, node]
        have more : (w.disk (o.start cwd old).1 n).nlink ≠ 0 := by
          have least := counted (o.start cwd old).1 n
          rw [onDisk]
          dsimp only
          omega
        have allocated (holds : safe) (dev inum : Nat) (name : Name) (next : Nat)
            (found : lookup w.disk dev inum name = some next) : (w.disk dev next).type ≠ .free := by
          rw [alike.tree.lookup] at found
          rw [(alike.tree dev next).1]
          exact (walkable holds).allocated _ _ _ _ found
        have spare (holds : safe) : 2 ≤ unused (bump base ip) := by
          have left := (walkable holds).spare
          by_contra few
          have few : unused base ≤ 2 := unused_le_of_bump (Nat.le_of_lt_succ (Nat.not_le.mp few))
          omega
        have linked : wp (Refuses safe _) (linkTo cwd ip new) _ x :=
          linkTo_entry (protected_of_changed guarded acquired changed) (alike.grounded grounded)
            here wDev wInum nonzero (by rwa [onDisk]) (by rwa [onDisk]) more
            (alike.newName newName) allocated spare unlocked.2
        simp only [alike.parent, alike.start, alike.hasRoom] at linked
        refine wp_mono (wp_allow linked fun halt refused => ?_) fun value y done => ?_
        · refine ⟨refused.notCreate, fun isDirlink => ?_, refused.only⟩
          obtain ⟨parent, sameDev, noRoom⟩ := refused.dirlink isDirlink
          exact ⟨⟨parent, sameDev, n, there, notDir⟩, noRoom⟩
        · rcases done with ⟨missing, bad⟩ | ⟨room, d, name, parent, found, others⟩
          · refine .inl ⟨fun links => ?_, bad⟩
            obtain ⟨parent, sameDev, -⟩ := links
            rcases missing with none | other
            · rw [none] at parent
              cases parent
            · exact other sameDev
          · refine .inr ⟨room, d, name, n, parent, ⟨found, fun other differ => ?_⟩, there⟩
            rw [others other differ, alike.tree.lookup]

end Linking

/-! ## New inodes -/

section Nodes

variable {safe : Prop} {path : List Char} {type : FileType}

/-- There is an inode where none was, and an entry under the last element of the path that
leads to it. -/
def State.Creates (o t : State) (cwd : Ip) (path : List Char) (type : FileType) : Prop :=
  ∃ d name n, o.parent cwd path = some (d, name) ∧
    (o.disk (o.start cwd path).1 n).type = .free ∧
    (t.disk (o.start cwd path).1 n).type = type ∧
    Entered o.disk t.disk (o.start cwd path).1 d name n

theorem Entry.creates {t u : State} {d : Nat} {name : Name}
    (parent : o.parent cwd path = some (d, name))
    (entry : Entry base o files locked ops (o.start cwd path).1 d name type ip t)
    (same : u.disk = t.disk) : o.HasRoom cwd path ∧ o.Creates u cwd path type := by
  obtain ⟨n, free, typed, entered⟩ := entry.made
  refine ⟨fun place member => ?_, d, name, n, parent, free, ?_, ?_⟩
  · rw [parent, Option.mem_some_iff] at member
    subst member
    exact entry.room
  · rw [same]
    exact typed
  · rw [same]
    exact entered

theorem makeNode_entry (major minor : Int) (typed : type ≠ .free) (guarded : Protected base o)
    (grounded : o.Grounded cwd) (counted : ∀ dev inum, 0 ≤ (o.disk dev inum).nlink)
    (here : 0 < base cwd) (new : o.NewName cwd path) (walkable : safe → Walkable base o)
    (freeInode : safe → (findFree o (o.start cwd path).1).isSome)
    (steady : Steady base o files base (fun _ => false) ops s) :
    wp (Refuses safe ((o.parent cwd path).isSome ∧ ¬ o.HasRoom cwd path))
      (makeNode cwd (some path) type major minor)
      (fun value t => (¬ (o.parent cwd path).isSome ∧ value = -1) ∨
        (o.HasRoom cwd path ∧ o.Creates t cwd path type)) s := by
  simp only [makeNode, wp_bind]
  refine wp_mono (wp_ends trivial (beginOp_steady steady)) fun _ t begun => ?_
  refine wp_mono (create_entry major minor typed guarded grounded counted here new walkable
    freeInode begun) fun found u made => ?_
  cases found with
  | none => exact .inl ⟨by rw [made.1]; decide, rfl⟩
  | some ip =>
      obtain ⟨d, name, parent, entry⟩ := made
      rw [wp_bind]
      refine wp_mono (wp_ends (iunlockput_runs entry.has (by simp))
        (iunlockput_calm entry.has (.inr entry.linked))) fun _ v calm => ?_
      exact .inr (entry.creates parent calm.disk)

theorem sysOpen_entry {omode : Nat} (creating : omode &&& oCreate ≠ 0)
    (guarded : Protected base o) (grounded : o.Grounded cwd)
    (counted : ∀ dev inum, 0 ≤ (o.disk dev inum).nlink) (here : 0 < base cwd)
    (closed : ∀ f, (files.ftable f).ref = 0 → (files.ftable f).kind = .none)
    (new : o.NewName cwd path) (walkable : safe → Walkable base o)
    (freeInode : safe → (findFree o (o.start cwd path).1).isSome)
    (steady : Steady base o files base (fun _ => false) ops s) :
    wp (Refuses safe ((o.parent cwd path).isSome ∧ ¬ o.HasRoom cwd path))
      (sysOpen p cwd (some path) omode)
      (fun value t => (¬ (o.parent cwd path).isSome ∧ value = -1) ∨
        (o.HasRoom cwd path ∧ o.Creates t cwd path .file)) s := by
  simp only [sysOpen, wp_bind, if_pos creating]
  refine wp_mono (wp_ends trivial (beginOp_steady steady)) fun _ t begun => ?_
  refine wp_mono (create_entry 0 0 (by decide) guarded grounded counted here new walkable freeInode
    begun) fun found u made => ?_
  cases found with
  | none => exact .inl ⟨by rw [made.1]; decide, rfl⟩
  | some ip =>
      obtain ⟨d, name, parent, entry⟩ := made
      refine wp_mono (openFile_calm omode (by simp) entry.has closed (.inr entry.linked))
        fun value v opened => ?_
      exact .inr (entry.creates parent opened.1)

end Nodes

end Xv6.Calls
