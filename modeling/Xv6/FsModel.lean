import Mathlib.Logic.Function.Basic
import Mathlib.Tactic.Simps.Basic
import Xv6.BufferCache

/-!
# System calls on inodes

The inode layer of `fs.c` and the system calls of `sysfile.c` as programs over
inode locks and the inode cache.  A program is a sequence of the steps that
other processes can tell apart: acquiring and releasing an inode's sleep-lock,
the critical sections under `icache.lock` and `ftable.lock`, and the changes to
an inode made while its lock is held.  An in-memory inode that is valid equals
the one on disk between these steps, because every change is followed by
`iupdate` under the lock.
-/

namespace Xv6.Fs

/-- Inode numbers. -/
abbrev Inum := Nat

/-- File names, at most `DIRSIZ` characters long. -/
abbrev Name := List Char

/-- `DIRSIZ` -/
abbrev dirsiz : Nat := 14

/-- `NINODE` -/
abbrev ninode : Nat := 50

/-- `NFILE` -/
abbrev nfile : Nat := 100

/-- `NOFILE` -/
abbrev nofile : Nat := 16

/-- `ROOTINO` -/
abbrev rootino : Inum := 1

/-- `MAXFILE*BSIZE/sizeof(struct dirent)` -/
abbrev maxDirents : Nat := 4480

/-- The `type` of an inode; `free` is zero. -/
inductive FileType where
  | free
  | dir
  | file
  | dev
  deriving DecidableEq

/-- `struct dirent`; `inum` is zero in a free slot. -/
structure Dirent where
  inum : Inum
  name : Name
  deriving DecidableEq

/-- `struct dinode`, with the contents of a directory. -/
structure Inode where
  type : FileType
  major : Int
  minor : Int
  nlink : Nat
  dirents : List Dirent
  deriving DecidableEq

/-- `struct file`: `ip` is set for `FD_INODE`. -/
structure File where
  ref : Nat
  ip : Option Inum

/-- The file system: inodes, the inode cache, the file table, and the current
directory and open files of each process. -/
structure State where
  inode : Inum → Inode
  ninodes : Nat
  ref : Inum → Nat
  valid : Inum → Bool
  lock : Inum → Option Pid
  cwd : Pid → Option Inum
  ofile : Pid → Fin nofile → Option (Fin nfile)
  ftable : Fin nfile → File

/-- The `panic` calls that the modelled code can reach. -/
inductive Panic where
  /-- "ilock: no type" -/
  | noType
  /-- "iget: no inodes" -/
  | igetNoInodes
  /-- "ialloc: no inodes" -/
  | iallocNoInodes
  /-- "dirlookup not DIR" -/
  | notDir
  /-- "dirlink" -/
  | dirlink
  /-- "unlink: nlink < 1" -/
  | unlinkNlink
  /-- "create dots" -/
  | createDots
  /-- "create: dirlink" -/
  | createDirlink
  deriving DecidableEq

/-- Which function calls `acquiresleep`. -/
inductive Caller where
  | ilock
  | iput
  deriving DecidableEq

/-- The rest of a system call. -/
inductive Prog where
  | done (result : Int)
  | panic (message : Panic)
  | acquire (caller : Caller) (i : Inum) (next : Prog)
  | release (i : Inum) (next : Prog)
  | fill (i : Inum) (next : Inode → Prog)
  | store (i : Inum) (node : Inode) (next : Prog)
  | iget (i : Inum) (next : Prog)
  | idupCwd (next : Inum → Prog)
  | ialloc (type : FileType) (next : Inum → Prog)
  | lastRef (i : Inum) (next : Bool → Prog)
  | free (i : Inum) (next : Prog)
  | unref (i : Inum) (next : Prog)
  | takeCwd (next : Inum → Prog)
  | setCwd (i : Inum) (next : Prog)
  | fileAlloc (next : Option (Fin nofile × Fin nfile) → Prog)
  | fileInstall (f : Fin nfile) (i : Inum) (next : Prog)
  | fileDrop (fd : Fin nofile) (next : Option (Option Inum) → Prog)
  | fork (child : Pid) (next : Prog)

/-! ## Inodes -/

/-- `ilock`; the rest of the call sees the inode. -/
def ilock (i : Inum) (next : Inode → Prog) : Prog :=
  .acquire .ilock i (.fill i next)

/-- `iput` -/
def iput (i : Inum) (next : Prog) : Prog :=
  .acquire .iput i <| .lastRef i fun last =>
    if last then .free i (.release i (.unref i next))
    else .release i (.unref i next)

/-- `iunlockput` -/
def iunlockput (i : Inum) (next : Prog) : Prog :=
  .release i (iput i next)

/-! ## Directories -/

/-- The loop of `dirlookup`, from a slot on: the inode and the slot. -/
def dirlookupFrom (name : Name) : Nat → List Dirent → Option (Inum × Nat)
  | _, [] => none
  | off, de :: rest =>
      if de.inum ≠ 0 ∧ de.name = name then some (de.inum, off)
      else dirlookupFrom name (off + 1) rest

/-- `dirlookup`, without its `iget`. -/
def dirlookup (dp : Inode) (name : Name) : Option (Inum × Nat) :=
  dirlookupFrom name 0 dp.dirents

theorem dirlookupFrom_eq_some {name : Name} {dirents : List Dirent}
    {off i slot : Nat} (found : dirlookupFrom name off dirents = some (i, slot)) :
    ∃ k, slot = off + k ∧ dirents[k]? = some ⟨i, name⟩ ∧ i ≠ 0 := by
  induction dirents generalizing off with
  | nil => cases found
  | cons de rest ih =>
      rw [dirlookupFrom] at found
      split at found
      next here =>
          cases found
          refine ⟨0, rfl, ?_, here.1⟩
          rw [List.getElem?_cons_zero, ← here.2]
      next =>
          obtain ⟨k, slotEq, member, nonzero⟩ := ih found
          refine ⟨k + 1, by omega, ?_, nonzero⟩
          rwa [List.getElem?_cons_succ]

theorem dirlookup_eq_some {node : Inode} {name : Name} {i slot : Nat}
    (found : dirlookup node name = some (i, slot)) :
    node.dirents[slot]? = some ⟨i, name⟩ ∧ i ≠ 0 := by
  obtain ⟨k, slotEq, member, nonzero⟩ := dirlookupFrom_eq_some found
  rw [Nat.zero_add] at slotEq
  subst slotEq
  exact ⟨member, nonzero⟩

theorem dirlookupFrom_eq_none {name : Name} {dirents : List Dirent} {off : Nat}
    (absent : dirlookupFrom name off dirents = none) :
    ∀ de ∈ dirents, de.inum ≠ 0 → de.name ≠ name := by
  induction dirents generalizing off with
  | nil =>
      intro de member
      cases member
  | cons slot rest ih =>
      intro de member used
      rw [dirlookupFrom] at absent
      split at absent
      · cases absent
      next other =>
          rcases List.mem_cons.mp member with rfl | later
          · exact fun same => other ⟨used, same⟩
          · exact ih absent de later used

theorem dirlookup_eq_none {node : Inode} {name : Name}
    (absent : dirlookup node name = none) :
    ∀ de ∈ node.dirents, de.inum ≠ 0 → de.name ≠ name :=
  dirlookupFrom_eq_none absent

/-- The second half of `dirlink`: the first free slot, or the end. -/
def insertDirent (de : Dirent) : List Dirent → List Dirent
  | [] => [de]
  | slot :: rest =>
      if slot.inum = 0 then de :: rest else slot :: insertDirent de rest

theorem mem_insertDirent {de new : Dirent} {dirents : List Dirent}
    (member : de ∈ insertDirent new dirents) : de = new ∨ de ∈ dirents := by
  induction dirents with
  | nil => simpa [insertDirent] using member
  | cons slot rest ih =>
      rw [insertDirent] at member
      split at member
      · rcases List.mem_cons.mp member with here | later
        · exact Or.inl here
        · exact Or.inr (List.mem_cons_of_mem _ later)
      · rcases List.mem_cons.mp member with here | later
        · exact Or.inr (here ▸ List.mem_cons_self)
        · rcases ih later with here | present
          · exact Or.inl here
          · exact Or.inr (List.mem_cons_of_mem _ present)

/-- `dirlink` on a locked directory; the rest of the call gets the new
contents, or `none` when the name is present. -/
def dirlink (dp : Inum) (node : Inode) (name : Name) (inum : Inum)
    (next : Option Inode → Prog) : Prog :=
  if node.type ≠ .dir then .panic .notDir
  else
    match dirlookup node name with
    | some (other, _) => .iget other (iput other (next none))
    | none =>
        let dirents := insertDirent ⟨inum, name⟩ node.dirents
        if maxDirents < dirents.length then .panic .dirlink
        else
          let node := { node with dirents := dirents }
          .store dp node (next (some node))

/-- `isdirempty`: slots 0 and 1 are "." and "..". -/
def isdirempty (node : Inode) : Bool :=
  (node.dirents.drop 2).all fun de => de.inum = 0

/-! ## Paths -/

/-- `skipelem` -/
def skipelem (path : List Char) : Option (Name × List Char) :=
  match path.dropWhile (· = '/') with
  | [] => none
  | rest =>
      some ((rest.takeWhile (· ≠ '/')).take dirsiz,
        (rest.dropWhile (· ≠ '/')).dropWhile (· = '/'))

/-- The elements that the loop of `namex` takes from a path. -/
def elementsFuel : Nat → List Char → List Name
  | 0, _ => []
  | fuel + 1, path =>
      match skipelem path with
      | some (name, rest) => name :: elementsFuel fuel rest
      | none => []

/-- Each element consumes a character, so the length of the path suffices. -/
def elements (path : List Char) : List Name :=
  elementsFuel path.length path

/-- The loop of `namex`; `parent` is its `nameiparent` argument. -/
def namexFrom (parent : Bool) (next : Option (Inum × Name) → Prog)
    (ip : Inum) : List Name → Prog
  | [] => if parent then iput ip (next none) else next (some (ip, []))
  | name :: rest =>
      ilock ip fun node =>
        if node.type ≠ .dir then iunlockput ip (next none)
        else if parent ∧ rest = [] then .release ip (next (some (ip, name)))
        else
          match dirlookup node name with
          | none => iunlockput ip (next none)
          | some (inum, _) =>
              .iget inum (iunlockput ip (namexFrom parent next inum rest))

/-- `namex` -/
def namex (parent : Bool) (path : List Char)
    (next : Option (Inum × Name) → Prog) : Prog :=
  if path.head? = some '/' then
    .iget rootino (namexFrom parent next rootino (elements path))
  else .idupCwd fun ip => namexFrom parent next ip (elements path)

/-- `namei` -/
def namei (path : List Char) (next : Option Inum → Prog) : Prog :=
  namex false path fun found => next (found.map Prod.fst)

/-- `nameiparent` -/
def nameiparent (path : List Char) (next : Option (Inum × Name) → Prog) :
    Prog :=
  namex true path next

/-! ## System calls -/

/-- The failure exit of `sys_link`. -/
def linkBad (ip : Inum) : Prog :=
  ilock ip fun node =>
    .store ip { node with nlink := node.nlink - 1 } <|
      iunlockput ip (.done (-1))

/-- `sys_link` -/
def sysLink (old new : List Char) : Prog :=
  namei old fun
    | none => .done (-1)
    | some ip => ilock ip fun node =>
        if node.type = .dir then iunlockput ip (.done (-1))
        else
          .store ip { node with nlink := node.nlink + 1 } <| .release ip <|
            nameiparent new fun
              | none => linkBad ip
              | some (dp, name) => ilock dp fun dnode =>
                  dirlink dp dnode name ip fun
                    | none => iunlockput dp (linkBad ip)
                    | some _ => iunlockput dp (iput ip (.done 0))

/-- `sys_unlink` -/
def sysUnlink (path : List Char) : Prog :=
  nameiparent path fun
    | none => .done (-1)
    | some (dp, name) => ilock dp fun dnode =>
        if name = ['.'] ∨ name = ['.', '.'] then iunlockput dp (.done (-1))
        else if dnode.type ≠ .dir then .panic .notDir
        else
          match dirlookup dnode name with
          | none => iunlockput dp (.done (-1))
          | some (inum, off) => .iget inum <| ilock inum fun node =>
              if node.nlink < 1 then .panic .unlinkNlink
              else if node.type = .dir ∧ ¬ isdirempty node then
                iunlockput inum (iunlockput dp (.done (-1)))
              else
                let dnode :=
                  { dnode with dirents := dnode.dirents.set off ⟨0, []⟩ }
                .store dp dnode <|
                  let rest := iunlockput dp <|
                    .store inum { node with nlink := node.nlink - 1 } <|
                      iunlockput inum (.done 0)
                  if node.type = .dir then
                    .store dp { dnode with nlink := dnode.nlink - 1 } rest
                  else rest

/-- The part of `create` after `ialloc`, which fills the new inode and links
it; a new directory gets its "." and ".." entries first. -/
def createNew (dp : Inum) (dnode : Inode) (name : Name) (ip : Inum)
    (type : FileType) (major minor : Int) (next : Option Inum → Prog) : Prog :=
  ilock ip fun node =>
    let node := { node with major := major, minor := minor, nlink := 1 }
    .store ip node <|
      let link (dnode : Inode) := dirlink dp dnode name ip fun
        | none => .panic .createDirlink
        | some _ => iunlockput dp (next (some ip))
      if type = .dir then
        let dnode := { dnode with nlink := dnode.nlink + 1 }
        .store dp dnode <| dirlink ip node ['.'] ip fun
          | none => .panic .createDots
          | some node => dirlink ip node ['.', '.'] dp fun
              | none => .panic .createDots
              | some _ => link dnode
      else link dnode

/-- `create`; the rest of the call holds the lock of the inode it gets. -/
def create (path : List Char) (type : FileType) (major minor : Int)
    (next : Option (Inum × FileType) → Prog) : Prog :=
  nameiparent path fun
    | none => next none
    | some (dp, name) => ilock dp fun dnode =>
        if dnode.type ≠ .dir then .panic .notDir
        else
          match dirlookup dnode name with
          | some (inum, _) =>
              .iget inum <| iunlockput dp <| ilock inum fun node =>
                if type = .file ∧ node.type = .file then
                  next (some (inum, node.type))
                else iunlockput inum (next none)
          | none => .ialloc type fun ip =>
              createNew dp dnode name ip type major minor fun
                | some ip => next (some (ip, type))
                | none => next none

/-- The end of `sys_open`, with the inode locked. -/
def openFile (ip : Inum) : Prog :=
  .fileAlloc fun
    | none => iunlockput ip (.done (-1))
    | some (fd, f) => .release ip (.fileInstall f ip (.done fd.val))

/-- `sys_open` -/
def sysOpen (path : List Char) (create? rdonly : Bool) : Prog :=
  if create? then
    create path .file 0 0 fun
      | none => .done (-1)
      | some (ip, _) => openFile ip
  else
    namei path fun
      | none => .done (-1)
      | some ip => ilock ip fun node =>
          if node.type = .dir ∧ ¬ rdonly then iunlockput ip (.done (-1))
          else openFile ip

/-- `sys_mkdir` -/
def sysMkdir (path : List Char) : Prog :=
  create path .dir 0 0 fun
    | none => .done (-1)
    | some (ip, _) => iunlockput ip (.done 0)

/-- `sys_mknod` -/
def sysMknod (path : List Char) (major minor : Int) : Prog :=
  create path .dev major minor fun
    | none => .done (-1)
    | some (ip, _) => iunlockput ip (.done 0)

/-- `sys_chdir` -/
def sysChdir (path : List Char) : Prog :=
  namei path fun
    | none => .done (-1)
    | some ip => ilock ip fun node =>
        if node.type ≠ .dir then iunlockput ip (.done (-1))
        else .release ip <| .takeCwd fun cwd => iput cwd (.setCwd ip (.done 0))

/-- The inode part of `exec`: the program is read while its inode is locked,
and the inode is released whether or not it can be loaded. -/
def sysExec (path : List Char) : Prog :=
  namei path fun
    | none => .done (-1)
    | some ip => ilock ip fun _ => iunlockput ip (.done 0)

/-- A descriptor is given up and its file passed to `fileclose`; `closed` is
what follows for a descriptor that is not open. -/
def fileclose (fd : Fin nofile) (closed next : Prog) : Prog :=
  .fileDrop fd fun
    | some (some ip) => iput ip next
    | some none => next
    | none => closed

/-- `sys_close` -/
def sysClose (fd : Fin nofile) : Prog :=
  fileclose fd (.done (-1)) (.done 0)

/-- The loop of `exit` over the open files. -/
def closeAll (next : Prog) : List (Fin nofile) → Prog
  | [] => next
  | fd :: rest => fileclose fd (closeAll next rest) (closeAll next rest)

/-- `exit`, up to the scheduler. -/
def sysExit : Prog :=
  closeAll (.takeCwd fun cwd => iput cwd (.done 0)) (List.finRange nofile)

/-- `fork`, for the file system: `filedup` of the open files and `idup` of the
current directory. -/
def sysFork (child : Pid) : Prog :=
  .fork child (.done 0)

/-- The system calls, with their arguments. -/
inductive Syscall where
  | open (path : List Char) (create rdonly : Bool)
  | link (old new : List Char)
  | unlink (path : List Char)
  | mkdir (path : List Char)
  | mknod (path : List Char) (major minor : Int)
  | chdir (path : List Char)
  | exec (path : List Char)
  | close (fd : Fin nofile)
  | exit
  | fork (child : Pid)

/-- The program of a system call. -/
def Syscall.prog : Syscall → Prog
  | .open path create? rdonly => sysOpen path create? rdonly
  | .link old new => sysLink old new
  | .unlink path => sysUnlink path
  | .mkdir path => sysMkdir path
  | .mknod path major minor => sysMknod path major minor
  | .chdir path => sysChdir path
  | .exec path => sysExec path
  | .close fd => sysClose fd
  | .exit => sysExit
  | .fork child => sysFork child

/-! ## Execution -/

namespace State

/-- Replace one inode. -/
@[simps -fullyApplied]
def setInode (s : State) (i : Inum) (node : Inode) : State :=
  { s with inode := Function.update s.inode i node }

@[simps -fullyApplied]
def setLock (s : State) (i : Inum) (owner : Option Pid) : State :=
  { s with lock := Function.update s.lock i owner }

@[simps -fullyApplied]
def setRef (s : State) (i : Inum) (count : Nat) : State :=
  { s with ref := Function.update s.ref i count }

@[simps -fullyApplied]
def setValid (s : State) (i : Inum) (valid : Bool) : State :=
  { s with valid := Function.update s.valid i valid }

@[simps -fullyApplied]
def setCwd (s : State) (pid : Pid) (i : Option Inum) : State :=
  { s with cwd := Function.update s.cwd pid i }

@[simps -fullyApplied]
def setFile (s : State) (f : Fin nfile) (file : File) : State :=
  { s with ftable := Function.update s.ftable f file }

@[simps -fullyApplied]
def setOfile (s : State) (pid : Pid) (fd : Fin nofile)
    (f : Option (Fin nfile)) : State :=
  { s with ofile :=
      Function.update s.ofile pid (Function.update (s.ofile pid) fd f) }

/-- The number of entries of `icache` in use. -/
def cached (s : State) : Nat :=
  (List.range s.ninodes).countP fun i => 0 < s.ref i

/-- `iget`; `none` is the panic "iget: no inodes". -/
def iget (s : State) (i : Inum) : Option State :=
  if 0 < s.ref i then some (s.setRef i (s.ref i + 1))
  else if ninode ≤ s.cached then none
  else some ((s.setRef i 1).setValid i false)

/-- The inode that `ialloc` writes. -/
def newInode (type : FileType) : Inode :=
  ⟨type, 0, 0, 0, []⟩

/-- `itrunc`, `type = 0`, `iupdate` and `valid = 0` in `iput`. -/
def freeInode (s : State) (i : Inum) : State :=
  (s.setInode i { s.inode i with type := .free, dirents := [] }).setValid i
    false

/-- The inode number is free. -/
def IsFree (s : State) (i : Inum) : Prop :=
  0 < i ∧ i < s.ninodes ∧ (s.inode i).type = .free

instance (s : State) (i : Inum) : Decidable (s.IsFree i) :=
  inferInstanceAs (Decidable (_ ∧ _ ∧ _))

/-- `filealloc` and `fdalloc`: the descriptor and the file. -/
def findFile (s : State) (pid : Pid) : Option (Fin nofile × Fin nfile) :=
  match (List.finRange nfile).find? fun f => (s.ftable f).ref = 0,
      (List.finRange nofile).find? fun fd => (s.ofile pid fd).isNone with
  | some f, some fd => some (fd, f)
  | _, _ => none

/-- How many descriptors of a process refer to a file. -/
def descriptors (s : State) (pid : Pid) (f : Fin nfile) : Nat :=
  (List.finRange nofile).countP fun fd => s.ofile pid fd = some f

/-- `fork`: the child gets the open files and the current directory. -/
def forkFiles (s : State) (pid child : Pid) (i : Inum) : State :=
  { (s.setRef i (s.ref i + 1)).setCwd child (some i) with
    ofile := Function.update s.ofile child (s.ofile pid)
    ftable := fun f =>
      { s.ftable f with ref := (s.ftable f).ref + s.descriptors pid f } }

end State

/-- One step of a system call.  `choice` is the free inode at which the scan
of `ialloc` stops; other processes may free and allocate inodes during it. -/
def Prog.step (pid : Pid) (choice : Inum) (s : State) :
    Prog → Option (State × Prog)
  | .done _ => none
  | .panic _ => none
  | .acquire _ i next =>
      if s.lock i = none then some (s.setLock i (some pid), next) else none
  | .release i next => some (s.setLock i none, next)
  | .fill i next =>
      if s.valid i then some (s, next (s.inode i))
      else if (s.inode i).type = .free then
        some (s.setValid i true, .panic .noType)
      else some (s.setValid i true, next (s.inode i))
  | .store i node next => some (s.setInode i node, next)
  | .iget i next =>
      match s.iget i with
      | some s => some (s, next)
      | none => some (s, .panic .igetNoInodes)
  | .idupCwd next =>
      match s.cwd pid with
      | some i => some (s.setRef i (s.ref i + 1), next i)
      | none => none
  | .ialloc type next =>
      if s.IsFree choice then
        let s := s.setInode choice (State.newInode type)
        match s.iget choice with
        | some s => some (s, next choice)
        | none => some (s, .panic .igetNoInodes)
      else if ∀ i < s.ninodes, ¬ s.IsFree i then
        some (s, .panic .iallocNoInodes)
      else none
  | .lastRef i next =>
      some (s, next (s.valid i && (s.inode i).nlink == 0 && s.ref i == 1))
  | .free i next => some (s.freeInode i, next)
  | .unref i next => some (s.setRef i (s.ref i - 1), next)
  | .takeCwd next =>
      match s.cwd pid with
      | some i => some (s.setCwd pid none, next i)
      | none => none
  | .setCwd i next => some (s.setCwd pid (some i), next)
  | .fileAlloc next =>
      match s.findFile pid with
      | some (fd, f) =>
          some ((s.setFile f ⟨1, none⟩).setOfile pid fd (some f),
            next (some (fd, f)))
      | none => some (s, next none)
  | .fileInstall f i next =>
      some (s.setFile f { s.ftable f with ip := some i }, next)
  | .fileDrop fd next =>
      match s.ofile pid fd with
      | some f =>
          let file := s.ftable f
          let s := s.setOfile pid fd none
          if file.ref ≤ 1 then some (s.setFile f ⟨0, none⟩, next (some file.ip))
          else some (s.setFile f { file with ref := file.ref - 1 },
            next (some none))
      | none => some (s, next none)
  | .fork child next =>
      match s.cwd pid with
      | some i =>
          if s.cwd child = none ∧ child ≠ pid then
            some (s.forkFiles pid child i, next)
          else none
      | none => none

/-- The processes and the rest of the call that each is in. -/
structure System where
  state : State
  prog : Pid → Option Prog
  busy : List Pid
  panicked : Option Panic

/-- A process starts a system call, or takes a step of it. -/
inductive Label where
  | call (pid : Pid) (syscall : Syscall)
  | run (pid : Pid) (choice : Inum)

namespace System

/-- A process enters a call. -/
@[simps -fullyApplied]
def enter (s : System) (pid : Pid) (prog : Prog) : System :=
  { s with
    prog := Function.update s.prog pid (some prog)
    busy := pid :: s.busy }

/-- A process returns from its call. -/
@[simps -fullyApplied]
def leave (s : System) (pid : Pid) : System :=
  { s with
    prog := Function.update s.prog pid none
    busy := s.busy.erase pid }

/-- Record where a call stands after a step. -/
def goto (s : System) (pid : Pid) (state : State) : Prog → System
  | .panic message =>
      { s with
        state := state
        prog := Function.update s.prog pid (some (.panic message))
        panicked := some message }
  | prog =>
      { s with
        state := state
        prog := Function.update s.prog pid (some prog) }

/-- One step of the system; nothing happens after a panic. -/
def step (s : System) (label : Label) : Option System :=
  if s.panicked = none then
    match label with
    | .call pid syscall =>
        if s.prog pid = none ∧ (s.state.cwd pid).isSome then
          some (s.enter pid syscall.prog)
        else none
    | .run pid choice =>
        match s.prog pid with
        | some (.done _) => some (s.leave pid)
        | some prog =>
            match prog.step pid choice s.state with
            | some (state, next) => some (s.goto pid state next)
            | none => none
        | none => none
  else none

/-- A file system in which no process is inside a call. -/
def quiet (state : State) : System :=
  ⟨state, fun _ => none, [], none⟩

end System

end Xv6.Fs
