import Xv6.InodeLimits
import Xv6.NewEntries

/-!
# Directories of the largest size

`dirlink` makes a new entry in a free slot or behind the last one.  When the
directory has `MAXFILE` blocks and no free slot, `writei` writes nothing and
`dirlink` panics.  Calls that make an entry end exactly when the directory has room,
if there is all else that they need.
-/

namespace Xv6.Calls

open StateTriples
open LabelledRuns (run)
open Fs (ninode rootino elements)

variable {s : State} {cwd : Ip} {p : Proc}

/-! ## Calls of a run -/

/-- The path of the entry that a call is to make. -/
def Call.entryPath : Call → Option (List Char)
  | .open (some path) omode => if omode &&& oCreate ≠ 0 then some path else none
  | .link (some _) (some new) => some new
  | .mkdir (some path) | .mknod (some path) _ _ => some path
  | _ => none

/-- The call gets as far as `dirlink`. -/
def State.Reaches (s : State) (cwd : Ip) (path : List Char) : Call → Prop
  | .link (some old) _ => s.Links cwd old path
  | _ => (s.parent cwd path).isSome

/-- The call has made its entry: of the file that the old path of a link leads to, or of a
new inode. -/
def State.Made (o t : State) (cwd : Ip) (path : List Char) : Call → Prop
  | .link (some old) _ =>
      ∃ d name n, o.parent cwd path = some (d, name) ∧
        Entered o.disk t.disk (o.start cwd path).1 d name n ∧
        reached o.disk (o.start cwd old).1 (o.start cwd old).2 (elements old) = some n
  | .mkdir _ => o.Creates t cwd path .dir
  | .mknod .. => o.Creates t cwd path .dev
  | _ => o.Creates t cwd path .file

/-- There is all that the call needs but the room in the directory: no entry leads to a free
inode, the inode cache has three entries left, and there is a free inode unless the call is
a `link`. -/
structure State.Supplied (s : State) (cwd : Ip) (path : List Char) (call : Call) : Prop where
  allocated : ∀ dev inum name next, lookup s.disk dev inum name = some next →
    (s.disk dev next).type ≠ .free
  spare : s.inodesInUse.card + 3 ≤ ninode
  freeInode : (∀ old new, call ≠ .link old new) →
    ∃ inum < s.ninodes, 1 ≤ inum ∧ (s.disk (s.start cwd path).1 inum).type = .free

theorem State.Supplied.walkable {path : List Char} {call : Call} {locked : Locks} {ops : Nat}
    {sound : Prop}
    (has : Has sound s.files (fun ip => s.files.refsOf ip + 0) locked ops s)
    (supplied : s.Supplied cwd path call) : Walkable (fun ip => s.files.refsOf ip + 0) s := by
  refine ⟨supplied.allocated, ?_⟩
  have spare := supplied.spare
  have counted := card_inodesInUse has
  omega

theorem State.Supplied.findFree {path : List Char} {call : Call}
    (supplied : s.Supplied cwd path call) (allocates : ∀ old new, call ≠ .link old new) :
    (findFree s (s.start cwd path).1).isSome := by
  obtain ⟨inum, inside, positive, free⟩ := supplied.freeInode allocates
  rw [Calls.findFree, List.find?_isSome]
  exact ⟨inum, List.mem_range.mpr inside, by simpa using ⟨positive, free⟩⟩

/-- A call that is to make an entry, whether or not it is safe. -/
theorem perform_entry {F : Files} {call : Call} {path : List Char} {safe : Prop}
    (linked : Settled True (fun _ => false) 0 F s) (here : (F.proc p).cwd = some cwd)
    (makes : call.entryPath = some path) (new : s.NewName cwd path)
    (grounded : s.Grounded cwd) (counted : ∀ dev inum, 0 ≤ (s.disk dev inum).nlink)
    (supplied : safe → s.Supplied cwd path call) :
    wp (Refuses safe (s.Reaches cwd path call ∧ ¬ s.HasRoom cwd path)) (perform p cwd call)
      (fun value t => (¬ s.Reaches cwd path call ∧ value = -1) ∨
        (s.HasRoom cwd path ∧ s.Made t cwd path call)) s := by
  have owns := linked.owns
  have files := owns.files
  subst files
  have used : 0 < s.files.refsOf cwd + 0 := Files.refsOf_pos here
  have guarded : Protected (fun ip => s.files.refsOf ip + 0) s := by
    intro dev inum type unlinked
    obtain ⟨ip, pos, isDev, isInum, -⟩ := owns.has.kept trivial dev inum type unlinked
    exact ⟨ip, pos, isDev, isInum⟩
  have steady : Steady (fun ip => s.files.refsOf ip + 0) s s.files
      (fun ip => s.files.refsOf ip + 0) (fun _ => false) 0 s :=
    ⟨{ owns.has with kept := False.elim }, .refl _ s⟩
  have walkable (holds : safe) := (supplied holds).walkable owns.has
  unfold Call.entryPath at makes
  split at makes
  case h_1 path' omode =>
    split at makes
    case isFalse => cases makes
    case isTrue creating =>
      cases makes
      exact sysOpen_entry creating guarded grounded counted used owns.ok.closed new walkable
        (fun holds => (supplied holds).findFree nofun) steady
  case h_2 old new' =>
    cases makes
    exact sysLink_entry guarded grounded counted used new walkable steady
  case h_3 path' =>
    cases makes
    exact makeNode_entry 0 0 nofun guarded grounded counted used new walkable
      (fun holds => (supplied holds).findFree nofun) steady
  case h_4 path' major minor =>
    cases makes
    exact makeNode_entry major minor nofun guarded grounded counted used new walkable
      (fun holds => (supplied holds).findFree nofun) steady
  case h_5 => cases makes

theorem dupFiles_disk (p np : Proc) (fds : List (Fin Fs.nofile)) (s : State) :
    wp Any (dupFiles p np fds) (fun _ t => t.disk = s.disk) s := by
  induction fds generalizing s with
  | nil => rfl
  | cons fd rest ih =>
      simp only [dupFiles, filedup, getFiles, setFiles, wp_bind, wp_get, wp_pure]
      split
      · exact ih s
      · simp only [wp_bind, wp_get, wp_pure]
        split
        · trivial
        · exact ih _

theorem fork_disk (p : Proc) (cwd : Ip) (np : Option Proc) (s : State) :
    wp Any (fork p cwd np) (fun _ t => t.disk = s.disk) s := by
  unfold fork
  split
  · rfl
  · rw [wp_bind]
    exact wp_mono (dupFiles_disk _ _ _ s) fun _ _ same => same

local instance forkThen_neZero : NeZero 64 := ⟨by decide⟩

local instance forkThen_neZero' : NeZero 50 := ⟨by decide⟩

/-- What has to be computed of the state that these calls lead to. -/
def linksThere (labels : List Label) : Bool :=
  match run State.step (boot oneFileDisk 8) labels with
  | none => false
  | some s =>
      (s.files.proc 1).cwd = some 0 ∧ s.NewName 0 ['g'] ∧ s.Grounded 0 ∧
        s.inodesInUse.card + 3 ≤ ninode ∧ s.HasRoom 0 ['g'] ∧ s.Links 0 ['f'] ['g']

theorem counted_oneFileDisk (dev inum : Nat) : 0 ≤ (oneFileDisk dev inum).nlink := by
  unfold oneFileDisk
  split
  · exact Int.one_nonneg
  · split
    · exact Int.one_nonneg
    · exact le_rfl

theorem linked_oneFileDisk : Linked oneFileDisk := by
  intro dev inum type
  unfold oneFileDisk at *
  split at type
  case isTrue root =>
    rw [if_pos root]
    exact Int.one_ne_zero
  case isFalse other =>
    rw [if_neg other]
    split at type
    case isTrue file =>
      rw [if_pos file]
      exact Int.one_ne_zero
    case isFalse => exact absurd rfl type

end Xv6.Calls

namespace Xv6.Fs

open LabelledRuns (run)

/-! ## Links in one directory -/

variable {pid : Pid} {s t : State} {i d : Inum} {old new : List Char} {oldName newName : Name}
  {off : Nat} {last : Prog}

/-- The file system in which `link` has raised the number of links. -/
def State.raised (s : State) (i : Inum) : State :=
  s.setInode i { s.inode i with nlink := (s.inode i).nlink + 1 }

/-- `link` of a file in the current directory, up to `dirlink`. -/
theorem Performs.linkUpTo (here : s.Here pid d) (plain : Plain old oldName)
    (plain' : Plain new newName) (found : dirlookup (s.inode d) oldName = some (i, off))
    (other : i ≠ d) (used : 0 < s.ref i) (notDir : (s.inode i).type ≠ .dir)
    (free : s.lock i = none) (valid : s.valid i = true)
    (rest : Performs pid
      ((((s.raised i).setRef i (s.ref i + 1)).setRef d (s.ref d + 1)).setLock d (some pid))
      (Fs.dirlink d (s.inode d) newName i fun
        | none => Fs.iunlockput d (linkBad i)
        | some _ => Fs.iunlockput d (Fs.iput i (.done 0))) t last) :
    Performs pid s (sysLink old new) t last := by
  have here' : ((s.raised i).setRef i (s.ref i + 1)).Here pid d := by
    have same : ((s.raised i).setRef i (s.ref i + 1)).inode d = s.inode d :=
      Function.update_of_ne other.symm _ _
    have kept : ((s.raised i).setRef i (s.ref i + 1)).ref d = s.ref d :=
      Function.update_of_ne other.symm _ _
    refine ⟨here.cwd, ?_, ?_, here.free, here.valid, ?_⟩
    · rw [same, here.type]
    · rw [same]
      exact here.linked
    · rw [kept]
      exact here.used
  rw [sysLink]
  apply Performs.namei here plain found other used
  apply Performs.ilock (s := s.setRef i (s.ref i + 1)) free valid
  rw [State.setRef_inode, if_neg notDir]
  apply Performs.store
  apply Performs.release (s := (s.raised i).setRef i (s.ref i + 1)) free
  apply Performs.nameiparent here' plain'
  apply Performs.ilock here'.held.free here'.held.valid
  have same : ((s.raised i).setRef i (s.ref i + 1)).inode d = s.inode d :=
    Function.update_of_ne other.symm _ _
  have kept : ((s.raised i).setRef i (s.ref i + 1)).ref d = s.ref d :=
    Function.update_of_ne other.symm _ _
  rwa [State.setRef_inode, same, kept]

/-- The file system with one more link to a file. -/
def State.linked (s : State) (d i : Inum) (name : Name) : State :=
  (s.raised i).setInode d
    { s.inode d with dirents := insertDirent ⟨i, name⟩ (s.inode d).dirents }

/-- `link` of a file in the current directory under a new name. -/
theorem Performs.link (here : s.Here pid d) (plain : Plain old oldName)
    (plain' : Plain new newName) (found : dirlookup (s.inode d) oldName = some (i, off))
    (other : i ≠ d) (used : 0 < s.ref i) (notDir : (s.inode i).type ≠ .dir)
    (free : s.lock i = none) (valid : s.valid i = true)
    (absent : dirlookup (s.inode d) newName = none)
    (room : (insertDirent ⟨i, newName⟩ (s.inode d).dirents).length ≤ maxDirents) :
    Performs pid s (sysLink old new) (s.linked d i newName) (.done 0) := by
  apply linkUpTo here plain plain' found other used notDir free valid
  apply Performs.dirlink here.type absent room
  have linkedFile : ((s.linked d i newName).inode i).nlink ≠ 0 := by
    rw [State.linked, State.setInode_inode, Function.update_of_ne other, State.raised,
      State.setInode_inode, Function.update_self]
    exact Nat.succ_ne_zero _
  have linkedDir : ((s.linked d i newName).inode d).nlink ≠ 0 := by
    rw [State.linked, State.setInode_inode, Function.update_self]
    exact here.linked
  have kept : ((s.linked d i newName).setRef i (s.ref i + 1)).ref d = s.ref d :=
    Function.update_of_ne other.symm _ _
  have back : Performs pid
      ((((s.linked d i newName).setRef i (s.ref i + 1)).setRef d
        (((s.linked d i newName).setRef i (s.ref i + 1)).ref d + 1)).setLock d (some pid))
      (Fs.iunlockput d (Fs.iput i (.done 0))) (s.linked d i newName) (.done 0) := by
    apply iunlockput_back (s := (s.linked d i newName).setRef i (s.ref i + 1)) here.free linkedDir
    exact iput_back (s := s.linked d i newName) free linkedFile (.refl _ _)
  rw [kept] at back
  exact back

/-- `link` into a full directory. -/
theorem Performs.link_full (here : s.Here pid d) (plain : Plain old oldName)
    (plain' : Plain new newName) (found : dirlookup (s.inode d) oldName = some (i, off))
    (other : i ≠ d) (used : 0 < s.ref i) (notDir : (s.inode i).type ≠ .dir)
    (free : s.lock i = none) (valid : s.valid i = true)
    (absent : dirlookup (s.inode d) newName = none)
    (full : maxDirents < (insertDirent ⟨i, newName⟩ (s.inode d).dirents).length) :
    Performs pid s (sysLink old new)
      ((((s.raised i).setRef i (s.ref i + 1)).setRef d (s.ref d + 1)).setLock d (some pid))
      (.panic .dirlink) := by
  apply linkUpTo here plain plain' found other used notDir free valid
  rw [Fs.dirlink, if_neg (not_not.mpr here.type), absent]
  dsimp only
  rw [if_pos full]
  exact .refl _ _

/-! ## Filling the root directory -/

/-- One file with so many links in the root directory, open in process 0. -/
def manyLinks (k : Nat) : State :=
  { opened 1 1 with
    inode i :=
      if i = 1 then ⟨.dir, 0, 0, 1, rootWith (fun _ => 2) k⟩
      else if i = 2 then ⟨.file, 0, 0, k, []⟩
      else ⟨.free, 0, 0, 0, []⟩ }

theorem manyLinks_one : manyLinks 1 = opened 1 1 := by
  apply State.ext
  case inode =>
      funext (i : Nat)
      have only : 2 ≤ i ∧ i < 1 + 2 ↔ i = 2 := by omega
      simp only [manyLinks, opened, only]
      rfl
  all_goals rfl

theorem manyLinks_here (k : Nat) : (manyLinks k).Here 0 1 :=
  ⟨rfl, rfl, Nat.one_ne_zero, rfl, rfl, Nat.one_pos⟩

theorem manyLinks_found (k : Nat) :
    dirlookup ((manyLinks (k + 1)).inode 1) (nameOf 0) = some (2, 2) := by
  change dirlookupFrom (nameOf 0) 0 (rootWith (fun _ => 2) (k + 1)) = _
  rw [rootWith, List.range_succ_eq_map, List.map_cons]
  rfl

theorem manyLinks_insert (k : Nat) :
    insertDirent ⟨2, nameOf k⟩ ((manyLinks k).inode 1).dirents = rootWith (fun _ => 2) (k + 1) :=
  insert_rootWith (fun _ => Nat.succ_ne_zero 1) k

theorem manyLinks_succ (k : Nat) : (manyLinks k).linked 1 2 (nameOf k) = manyLinks (k + 1) := by
  apply State.ext
  case inode =>
      funext (i : Nat)
      simp only [State.linked, State.raised, State.setInode_inode, manyLinks_insert]
      by_cases root : i = 1
      · subst root
        rfl
      · by_cases file : i = 2
        · subst file
          rfl
        · simp [manyLinks, root, file]
  all_goals rfl

theorem manyLinks_link {k : Nat} (few : k < 4477) :
    CallsLead (manyLinks (k + 1)) (manyLinks (k + 2)) := by
  have performs : Performs 0 (manyLinks (k + 1)) (Syscall.link (nameOf 0) (nameOf (k + 1))).prog
      (manyLinks (k + 2)) (.done 0) := by
    rw [← manyLinks_succ (k + 1)]
    apply Performs.link (manyLinks_here _) (plain_nameOf (by decide)) (plain_nameOf (by omega))
      (manyLinks_found k) (by decide) Nat.one_pos nofun rfl rfl (nameOf_absent (by omega) 0)
    rw [manyLinks_insert, length_rootWith]
    change k + 2 + 2 ≤ 4480
    omega
  exact System.run_call rfl performs

theorem freshRoot_manyLinks {k : Nat} (few : k ≤ 4477) :
    CallsLead freshRoot (manyLinks (k + 1)) := by
  induction k with
  | zero =>
      rw [manyLinks_one, ← opened_one]
      exact opened_open (by decide) (by decide)
  | succ k ih => exact (ih (by omega)).trans (manyLinks_link (by omega))

/-- A link too many. -/
theorem manyLinks_panics {k : Nat} (many : 4477 ≤ k) (few : k < 4899) :
    ∃ t, Performs 0 (manyLinks (k + 1)) (sysLink (nameOf 0) (nameOf (k + 1))) t
      (.panic .dirlink) := by
  have full : maxDirents <
      (insertDirent ⟨2, nameOf (k + 1)⟩ ((manyLinks (k + 1)).inode 1).dirents).length := by
    rw [manyLinks_insert, length_rootWith]
    change 4480 < k + 2 + 2
    omega
  refine ⟨_, Performs.link_full (manyLinks_here _) (plain_nameOf (by decide))
    (plain_nameOf (by omega)) (manyLinks_found k) (by decide) Nat.one_pos nofun rfl rfl
    (nameOf_absent (by omega) 0) full⟩

end Xv6.Fs
