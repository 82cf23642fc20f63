import Xv6.FsModel

/-!
# System calls over the tables of the kernel

The calls of `sysfile.c`, `exec`, `fork` and `exit` as they run one after
another, over the tables that their pointers point into: the entries of the
inode cache, the file table, the descriptors and current directories of the
processes, and the pages of the pipes.  A call ends with a value, or it stops
the kernel with a panic or sleeps on a lock that it holds itself.
-/

namespace Xv6.Calls

open Fs (FileType Dirent Name ninode nfile nofile rootino maxDirents dirlookupFrom
  insertDirent elements)

/-- `NPROC` -/
abbrev nproc : Nat := 64

/-- `ROOTDEV` -/
abbrev rootdev : Nat := 1

/-- The fields of `struct dinode`, with the contents: the entries of a directory
and the bytes of any other file. -/
structure Dinode where
  type : FileType
  major : Int
  minor : Int
  nlink : Int
  dirents : List Dirent
  data : List UInt8

/-- A pointer to an entry of `icache`. -/
abbrev Ip := Fin ninode

/-- A pointer to an entry of `ftable`. -/
abbrev Fp := Fin nfile

/-- An entry of `ptable`. -/
abbrev Proc := Fin nproc

/-- `struct inode`; `locked` is its sleep-lock and `node` the copy of the inode
on disk. -/
structure Inode where
  dev : Nat
  inum : Nat
  ref : Nat
  locked : Bool
  valid : Bool
  node : Dinode

/-- The type of a `struct file`, with the pointer that goes with it. -/
inductive FileKind where
  | none
  | pipe (page : Nat)
  | inode (ip : Ip)
  deriving DecidableEq

/-- `struct file` -/
structure File where
  kind : FileKind
  ref : Nat
  readable : Bool
  writable : Bool
  off : Nat

/-- The ends of a `struct pipe`. -/
structure Pipe where
  readopen : Bool
  writeopen : Bool

/-- The descriptors and the current directory of a process. -/
structure Process where
  ofile : Fin nofile → Option Fp
  cwd : Option Ip

/-- The file table, the processes and the pipes, and how often each page was
handed out by `kalloc` for a pipe and passed to `kfree`. -/
structure Files where
  ftable : Fp → File
  proc : Proc → Process
  alive : Proc → Bool
  pipe : Nat → Pipe
  allocated : Nat → Nat
  freed : Nat → Nat

structure State where
  icache : Ip → Inode
  disk : Nat → Nat → Dinode
  ninodes : Nat
  outstanding : Nat
  files : Files

/-- Why a call does not end: the panics of the source, and a sleep on a lock
that the call holds itself. -/
inductive Halt where
  | filedup
  | fileclose
  | ilock
  | noType
  | iunlock
  | igetNoInodes
  | iallocNoInodes
  | notDir
  | dirlink
  | unlinkNlink
  | createDots
  | createDirlink
  | initExiting
  | asleep
  deriving DecidableEq

abbrev Sys := StateT State (Except Halt)

/-! ## The inode cache -/

namespace State

def setIp (s : State) (ip : Ip) (inode : Inode) : State :=
  { s with icache := Function.update s.icache ip inode }

def setNode (s : State) (ip : Ip) (node : Dinode) : State :=
  s.setIp ip { s.icache ip with node := node }

def setDisk (s : State) (dev inum : Nat) (node : Dinode) : State :=
  { s with
    disk := Function.update s.disk dev (Function.update (s.disk dev) inum node) }

/-- `iupdate` -/
def iupdate (s : State) (ip : Ip) : State :=
  let inode := s.icache ip
  s.setDisk inode.dev inode.inum inode.node

end State

/-- What the loop of `iget` finds: the entry, an empty one, or neither. -/
inductive Found where
  | cached (ip : Ip)
  | empty (ip : Ip)
  | full

/-- The loop of `iget` at the entries still to be visited. -/
def igetLoop (icache : Ip → Inode) (dev inum : Nat) : List Ip → Option Ip → Found
  | [], none => .full
  | [], some empty => .empty empty
  | ip :: rest, empty =>
      if 0 < (icache ip).ref ∧ (icache ip).dev = dev ∧ (icache ip).inum = inum then
        .cached ip
      else
        igetLoop icache dev inum rest
          (if empty = none ∧ (icache ip).ref = 0 then some ip else empty)

def iget (dev inum : Nat) : Sys Ip := do
  let s ← get
  match igetLoop s.icache dev inum (List.finRange ninode) none with
  | .cached ip =>
      set (s.setIp ip { s.icache ip with ref := (s.icache ip).ref + 1 })
      pure ip
  | .empty ip =>
      set (s.setIp ip
        { s.icache ip with dev := dev, inum := inum, ref := 1, valid := false })
      pure ip
  | .full => throw .igetNoInodes

def idup (ip : Ip) : Sys Ip := do
  modify fun s => s.setIp ip { s.icache ip with ref := (s.icache ip).ref + 1 }
  pure ip

def acquiresleep (ip : Ip) : Sys Unit := do
  let s ← get
  if (s.icache ip).locked then throw .asleep
  else set (s.setIp ip { s.icache ip with locked := true })

def releasesleep (ip : Ip) : Sys Unit :=
  modify fun s => s.setIp ip { s.icache ip with locked := false }

/-- The part of `ilock` under the lock. -/
def fill (ip : Ip) : Sys Unit := do
  let s ← get
  let inode := s.icache ip
  if inode.valid then pure ()
  else
    let node := s.disk inode.dev inode.inum
    set (s.setIp ip { inode with node := node, valid := true })
    if node.type = .free then throw .noType else pure ()

def ilock (ip : Ip) : Sys Unit := do
  let s ← get
  if (s.icache ip).ref < 1 then throw .ilock
  else
    acquiresleep ip
    fill ip

def iunlock (ip : Ip) : Sys Unit := do
  let s ← get
  if ¬ (s.icache ip).locked ∨ (s.icache ip).ref < 1 then throw .iunlock
  else releasesleep ip

/-- The part of `iput` under the lock: an inode without links and without other
references is truncated and freed. -/
def freeUnlinked (ip : Ip) : Sys Unit := do
  let s ← get
  let inode := s.icache ip
  if inode.valid ∧ inode.node.nlink = 0 ∧ inode.ref = 1 then
    let s := s.setNode ip { inode.node with type := .free, dirents := [], data := [] }
    let s := s.iupdate ip
    set (s.setIp ip { s.icache ip with valid := false })
  else pure ()

/-- The decrement of `ref` in `iput`. -/
def unref (ip : Ip) : Sys Unit :=
  modify fun s => s.setIp ip { s.icache ip with ref := (s.icache ip).ref - 1 }

def iput (ip : Ip) : Sys Unit := do
  acquiresleep ip
  freeUnlinked ip
  releasesleep ip
  unref ip

def iunlockput (ip : Ip) : Sys Unit := do
  iunlock ip
  iput ip

/-- The loop of `ialloc`: the first free inode of the device. -/
def findFree (s : State) (dev : Nat) : Option Nat :=
  (List.range s.ninodes).find? fun inum => 1 ≤ inum ∧ (s.disk dev inum).type = .free

def ialloc (dev : Nat) (type : FileType) : Sys Ip := do
  let s ← get
  match findFree s dev with
  | none => throw .iallocNoInodes
  | some inum =>
      set (s.setDisk dev inum ⟨type, 0, 0, 0, [], []⟩)
      iget dev inum

def nodeOf (ip : Ip) : Sys Dinode := do
  let s ← get
  pure (s.icache ip).node

def devOf (ip : Ip) : Sys Nat := do
  let s ← get
  pure (s.icache ip).dev

def inumOf (ip : Ip) : Sys Nat := do
  let s ← get
  pure (s.icache ip).inum

/-- Change the copy of an inode and write it to the disk. -/
def update (ip : Ip) (change : Dinode → Dinode) : Sys Unit :=
  modify fun s => (s.setNode ip (change (s.icache ip).node)).iupdate ip

/-! ## Directories and paths -/

def dirlookup (dp : Ip) (name : Name) : Sys (Option (Ip × Nat)) := do
  let node ← nodeOf dp
  if node.type ≠ .dir then throw .notDir
  else
    match dirlookupFrom name 0 node.dirents with
    | none => pure none
    | some (inum, off) => do
        let dev ← devOf dp
        let ip ← iget dev inum
        pure (some (ip, off))

/-- `dirlink`; whether it succeeded. -/
def dirlink (dp : Ip) (name : Name) (inum : Nat) : Sys Bool := do
  match ← dirlookup dp name with
  | some (ip, _) => do
      iput ip
      pure false
  | none => do
      let node ← nodeOf dp
      let dirents := insertDirent ⟨inum, name⟩ node.dirents
      if maxDirents < dirents.length then throw .dirlink
      else
        update dp fun node => { node with dirents := dirents }
        pure true

/-- The loop of `namex`. -/
def namexFrom (nameiparent : Bool) (ip : Ip) : List Name → Sys (Option (Ip × Name))
  | [] =>
      if nameiparent then do
        iput ip
        pure none
      else pure (some (ip, []))
  | name :: rest => do
      ilock ip
      let node ← nodeOf ip
      if node.type ≠ .dir then do
        iunlockput ip
        pure none
      else if nameiparent ∧ rest = [] then do
        iunlock ip
        pure (some (ip, name))
      else do
        match ← dirlookup ip name with
        | none => do
            iunlockput ip
            pure none
        | some (next, _) => do
            iunlockput ip
            namexFrom nameiparent next rest

/-- `namex`, for a process with a current directory. -/
def namex (cwd : Ip) (path : List Char) (nameiparent : Bool) :
    Sys (Option (Ip × Name)) := do
  if path.head? = some '/' then do
    let ip ← iget rootdev rootino
    namexFrom nameiparent ip (elements path)
  else do
    let ip ← idup cwd
    namexFrom nameiparent ip (elements path)

/-- `namei` -/
def namei (cwd : Ip) (path : List Char) : Sys (Option (Ip × Name)) :=
  namex cwd path false

/-- `nameiparent` -/
def nameiparent (cwd : Ip) (path : List Char) : Sys (Option (Ip × Name)) :=
  namex cwd path true

/-! ## Transactions -/

def beginOp : Sys Unit :=
  modify fun s => { s with outstanding := s.outstanding + 1 }

def endOp : Sys Unit :=
  modify fun s => { s with outstanding := s.outstanding - 1 }

/-- `end_op` before a return. -/
def endWith (value : Int) : Sys Int := do
  endOp
  pure value

/-! ## The file table, descriptors and pipes -/

namespace Files

def setFile (s : Files) (f : Fp) (file : File) : Files :=
  { s with ftable := Function.update s.ftable f file }

def setProc (s : Files) (p : Proc) (process : Process) : Files :=
  { s with proc := Function.update s.proc p process }

def setOfile (s : Files) (p : Proc) (fd : Fin nofile) (f : Option Fp) : Files :=
  s.setProc p { s.proc p with ofile := Function.update (s.proc p).ofile fd f }

def setCwd (s : Files) (p : Proc) (ip : Option Ip) : Files :=
  s.setProc p { s.proc p with cwd := ip }

end Files

def getFiles : Sys Files := do
  let s ← get
  pure s.files

def setFiles (files : Files) : Sys Unit :=
  modify fun s => { s with files := files }

def filealloc : Sys (Option Fp) := do
  let files ← getFiles
  match (List.finRange nfile).find? fun f => (files.ftable f).ref = 0 with
  | none => pure none
  | some f => do
      setFiles (files.setFile f { files.ftable f with ref := 1 })
      pure (some f)

def filedup (f : Fp) : Sys Fp := do
  let files ← getFiles
  let file := files.ftable f
  if file.ref < 1 then throw .filedup
  else do
    setFiles (files.setFile f { file with ref := file.ref + 1 })
    pure f

/-- `kfree` of the page of a pipe. -/
def kfree (page : Nat) : Sys Unit :=
  modify fun s => { s with files := { s.files with
    freed := Function.update s.files.freed page (s.files.freed page + 1) } }

/-- The flag of one end is cleared. -/
def Pipe.shut (p : Pipe) (writable : Bool) : Pipe :=
  if writable then { p with writeopen := false } else { p with readopen := false }

def pipeclose (page : Nat) (writable : Bool) : Sys Unit := do
  let files ← getFiles
  let p := (files.pipe page).shut writable
  setFiles { files with pipe := Function.update files.pipe page p }
  if p.readopen = false ∧ p.writeopen = false then kfree page else pure ()

def fileclose (f : Fp) : Sys Unit := do
  let files ← getFiles
  let ff := files.ftable f
  if ff.ref < 1 then throw .fileclose
  else if 0 < ff.ref - 1 then
    setFiles (files.setFile f { ff with ref := ff.ref - 1 })
  else do
    setFiles (files.setFile f { ff with ref := 0, kind := .none })
    match ff.kind with
    | .pipe page => pipeclose page ff.writable
    | .inode ip => do
        beginOp
        iput ip
        endOp
    | .none => pure ()

/-- `fdalloc`, for a process. -/
def fdalloc (p : Proc) (f : Fp) : Sys (Option (Fin nofile)) := do
  let files ← getFiles
  match (List.finRange nofile).find? fun fd => ((files.proc p).ofile fd).isNone with
  | none => pure none
  | some fd => do
      setFiles (files.setOfile p fd (some f))
      pure (some fd)

/-- `argfd`: an argument of any value. -/
def argfd (p : Proc) (n : Int) : Sys (Option (Fin nofile × Fp)) := do
  let files ← getFiles
  if inside : 0 ≤ n ∧ n.toNat < nofile then
    match (files.proc p).ofile ⟨n.toNat, inside.2⟩ with
    | none => pure none
    | some f => pure (some (⟨n.toNat, inside.2⟩, f))
  else pure none

/-- The end `bad` of `pipealloc`. -/
def pipeallocBad (page : Option Nat) (f0 f1 : Option Fp) : Sys (Option (Fp × Fp)) := do
  match page with
  | some page => kfree page
  | none => pure ()
  match f0 with
  | some f => fileclose f
  | none => pure ()
  match f1 with
  | some f => fileclose f
  | none => pure ()
  pure none

/-- `pipealloc`, given what `kalloc` returns. -/
def pipealloc (kalloc : Option Nat) : Sys (Option (Fp × Fp)) := do
  match ← filealloc with
  | none => pipeallocBad none none none
  | some f0 => do
      match ← filealloc with
      | none => pipeallocBad none (some f0) none
      | some f1 => do
          match kalloc with
          | none => pipeallocBad none (some f0) (some f1)
          | some page => do
              modify fun s => { s with files := { s.files with
                allocated :=
                  Function.update s.files.allocated page (s.files.allocated page + 1)
                pipe := Function.update s.files.pipe page ⟨true, true⟩ } }
              let files ← getFiles
              setFiles (files.setFile f0 { files.ftable f0 with
                kind := .pipe page, readable := true, writable := false })
              let files ← getFiles
              setFiles (files.setFile f1 { files.ftable f1 with
                kind := .pipe page, readable := false, writable := true })
              pure (some (f0, f1))

/-! ## System calls

A path argument is `none` when `argstr` fails. -/

abbrev Path := Option (List Char)

/-- The end `bad` of `sys_link`. -/
def linkBad (ip : Ip) : Sys Int := do
  ilock ip
  update ip fun node => { node with nlink := node.nlink - 1 }
  iunlockput ip
  endWith (-1)

/-- `sys_link`, from the lookup of the new name on. -/
def linkTo (cwd ip : Ip) (new : List Char) : Sys Int := do
  match ← nameiparent cwd new with
  | none => linkBad ip
  | some (dp, name) => do
      ilock dp
      let dpDev ← devOf dp
      let ipDev ← devOf ip
      if dpDev ≠ ipDev then do
        iunlockput dp
        linkBad ip
      else do
        let inum ← inumOf ip
        match ← dirlink dp name inum with
        | false => do
            iunlockput dp
            linkBad ip
        | true => do
            iunlockput dp
            iput ip
            endWith 0

def sysLink (cwd : Ip) (old new : Path) : Sys Int :=
  match old, new with
  | some old, some new => do
      beginOp
      match ← namei cwd old with
      | none => endWith (-1)
      | some (ip, _) => do
          ilock ip
          let node ← nodeOf ip
          if node.type = .dir then do
            iunlockput ip
            endWith (-1)
          else do
            update ip fun node => { node with nlink := node.nlink + 1 }
            iunlock ip
            linkTo cwd ip new
  | _, _ => pure (-1)

/-- `isdirempty`: slots 0 and 1 are "." and "..". -/
def isdirempty (node : Dinode) : Bool :=
  (node.dirents.drop 2).all fun de => de.inum = 0

/-- The end `bad` of `sys_unlink`. -/
def unlinkBad (dp : Ip) : Sys Int := do
  iunlockput dp
  endWith (-1)

/-- `sys_unlink`, from the changes on. -/
def unlinkEntry (dp ip : Ip) (off : Nat) : Sys Int := do
  let node ← nodeOf ip
  update dp fun dnode => { dnode with dirents := dnode.dirents.set off ⟨0, []⟩ }
  if node.type = .dir then
    update dp fun dnode => { dnode with nlink := dnode.nlink - 1 }
  else pure ()
  iunlockput dp
  update ip fun node => { node with nlink := node.nlink - 1 }
  iunlockput ip
  endWith 0

def sysUnlink (cwd : Ip) (path : Path) : Sys Int :=
  match path with
  | none => pure (-1)
  | some path => do
      beginOp
      match ← nameiparent cwd path with
      | none => endWith (-1)
      | some (dp, name) => do
          ilock dp
          if name = ['.'] ∨ name = ['.', '.'] then unlinkBad dp
          else do
            match ← dirlookup dp name with
            | none => unlinkBad dp
            | some (ip, off) => do
                ilock ip
                let node ← nodeOf ip
                if node.nlink < 1 then throw .unlinkNlink
                else if node.type = .dir ∧ ¬ isdirempty node then do
                  iunlockput ip
                  unlinkBad dp
                else unlinkEntry dp ip off

/-- The "." and ".." entries in `create`. -/
def createDots (dp ip : Ip) : Sys Unit := do
  update dp fun dnode => { dnode with nlink := dnode.nlink + 1 }
  let inum ← inumOf ip
  match ← dirlink ip ['.'] inum with
  | false => throw .createDots
  | true => do
      let parent ← inumOf dp
      match ← dirlink ip ['.', '.'] parent with
      | false => throw .createDots
      | true => pure ()

/-- The part of `create` that makes a new inode in a locked directory. -/
def createNew (dp : Ip) (name : Name) (type : FileType) (major minor : Int) :
    Sys (Option Ip) := do
  let dev ← devOf dp
  let ip ← ialloc dev type
  ilock ip
  update ip fun node => { node with major := major, minor := minor, nlink := 1 }
  if type = .dir then createDots dp ip else pure ()
  let inum ← inumOf ip
  match ← dirlink dp name inum with
  | false => throw .createDirlink
  | true => do
      iunlockput dp
      pure (some ip)

/-- `create`; the inode it returns is locked. -/
def create (cwd : Ip) (path : List Char) (type : FileType) (major minor : Int) :
    Sys (Option Ip) := do
  match ← nameiparent cwd path with
  | none => pure none
  | some (dp, name) => do
      ilock dp
      match ← dirlookup dp name with
      | some (ip, _) => do
          iunlockput dp
          ilock ip
          let node ← nodeOf ip
          if type = .file ∧ node.type = .file then pure (some ip)
          else do
            iunlockput ip
            pure none
      | none => createNew dp name type major minor

abbrev oRdonly : Nat := 0x000
abbrev oWronly : Nat := 0x001
abbrev oRdwr : Nat := 0x002
abbrev oCreate : Nat := 0x200

/-- `sys_open`, with the inode locked: the file and the descriptor. -/
def openFile (p : Proc) (ip : Ip) (omode : Nat) : Sys Int := do
  match ← filealloc with
  | none => do
      iunlockput ip
      endWith (-1)
  | some f => do
      match ← fdalloc p f with
      | none => do
          fileclose f
          iunlockput ip
          endWith (-1)
      | some fd => do
          iunlock ip
          endOp
          let files ← getFiles
          setFiles (files.setFile f { files.ftable f with
            kind := .inode ip
            off := 0
            readable := omode &&& oWronly = 0
            writable := omode &&& oWronly ≠ 0 ∨ omode &&& oRdwr ≠ 0 })
          pure fd.val

def sysOpen (p : Proc) (cwd : Ip) (path : Path) (omode : Nat) : Sys Int :=
  match path with
  | none => pure (-1)
  | some path => do
      beginOp
      if omode &&& oCreate ≠ 0 then do
        match ← create cwd path .file 0 0 with
        | none => endWith (-1)
        | some ip => openFile p ip omode
      else do
        match ← namei cwd path with
        | none => endWith (-1)
        | some (ip, _) => do
            ilock ip
            let node ← nodeOf ip
            if node.type = .dir ∧ omode ≠ oRdonly then do
              iunlockput ip
              endWith (-1)
            else openFile p ip omode

/-- `sys_mkdir` and `sys_mknod`, which create an inode and release it. -/
def makeNode (cwd : Ip) (path : Path) (type : FileType) (major minor : Int) :
    Sys Int := do
  beginOp
  match path with
  | none => endWith (-1)
  | some path => do
      match ← create cwd path type major minor with
      | none => endWith (-1)
      | some ip => do
          iunlockput ip
          endWith 0

def sysMkdir (cwd : Ip) (path : Path) : Sys Int :=
  makeNode cwd path .dir 0 0

def sysMknod (cwd : Ip) (path : Path) (major minor : Int) : Sys Int :=
  makeNode cwd path .dev major minor

def sysChdir (p : Proc) (cwd : Ip) (path : Path) : Sys Int := do
  beginOp
  match path with
  | none => endWith (-1)
  | some path => do
      match ← namei cwd path with
      | none => endWith (-1)
      | some (ip, _) => do
          ilock ip
          let node ← nodeOf ip
          if node.type ≠ .dir then do
            iunlockput ip
            endWith (-1)
          else do
            iunlock ip
            iput cwd
            endOp
            let files ← getFiles
            setFiles (files.setCwd p (some ip))
            pure 0

/-- How far `exec` gets once the program is found: it fails while it reads the
program, or later when it builds the stack, or it succeeds. -/
inductive Exec where
  | badProgram
  | badStack
  | loaded

def sysExec (cwd : Ip) (path : Path) (exec : Exec) : Sys Int :=
  match path with
  | none => pure (-1)
  | some path => do
      beginOp
      match ← namei cwd path with
      | none => endWith (-1)
      | some (ip, _) => do
          ilock ip
          match exec with
          | .badProgram => do
              iunlockput ip
              endWith (-1)
          | .badStack => do
              iunlockput ip
              endWith (-1)
          | .loaded => do
              iunlockput ip
              endWith 0

def sysDup (p : Proc) (fd : Int) : Sys Int := do
  match ← argfd p fd with
  | none => pure (-1)
  | some (_, f) => do
      match ← fdalloc p f with
      | none => pure (-1)
      | some new => do
          let _ ← filedup f
          pure new.val

def sysClose (p : Proc) (fd : Int) : Sys Int := do
  match ← argfd p fd with
  | none => pure (-1)
  | some (fd, f) => do
      let files ← getFiles
      setFiles (files.setOfile p fd none)
      fileclose f
      pure 0

/-- `sys_pipe`; `argptr` says whether the argument is valid. -/
def sysPipe (p : Proc) (argptr : Bool) (kalloc : Option Nat) : Sys Int := do
  if argptr = false then pure (-1)
  else do
    match ← pipealloc kalloc with
    | none => pure (-1)
    | some (rf, wf) => do
        match ← fdalloc p rf with
        | none => do
            fileclose rf
            fileclose wf
            pure (-1)
        | some fd0 => do
            match ← fdalloc p wf with
            | none => do
                let files ← getFiles
                setFiles (files.setOfile p fd0 none)
                fileclose rf
                fileclose wf
                pure (-1)
            | some _ => pure 0

/-- The loop of `fork` over the open files. -/
def dupFiles (p np : Proc) : List (Fin nofile) → Sys Unit
  | [] => pure ()
  | fd :: rest => do
      let files ← getFiles
      match (files.proc p).ofile fd with
      | none => dupFiles p np rest
      | some f => do
          let f ← filedup f
          let files ← getFiles
          setFiles (files.setOfile np fd (some f))
          dupFiles p np rest

/-- `fork`; `np` is `none` when there is no entry or no memory for the child. -/
def fork (p : Proc) (cwd : Ip) (np : Option Proc) : Sys Int :=
  match np with
  | none => pure (-1)
  | some np => do
      dupFiles p np (List.finRange nofile)
      let ip ← idup cwd
      let files ← getFiles
      let files := files.setCwd np (some ip)
      setFiles { files with alive := Function.update files.alive np true }
      pure 0

/-- The loop of `exit` over the open files. -/
def closeFiles (p : Proc) : List (Fin nofile) → Sys Unit
  | [] => pure ()
  | fd :: rest => do
      let files ← getFiles
      match (files.proc p).ofile fd with
      | none => closeFiles p rest
      | some f => do
          fileclose f
          let files ← getFiles
          setFiles (files.setOfile p fd none)
          closeFiles p rest

/-- The entry of `initproc`. -/
abbrev initproc : Proc := 0

/-- `exit`, up to the scheduler. -/
def exit (p : Proc) (cwd : Ip) : Sys Int := do
  if p = initproc then throw .initExiting
  else do
    closeFiles p (List.finRange nofile)
    beginOp
    iput cwd
    endOp
    let files ← getFiles
    let files := files.setCwd p none
    setFiles { files with alive := Function.update files.alive p false }
    pure 0

/-- The calls with their arguments, and what the rest of the kernel answers to
them. -/
inductive Call where
  | open (path : Path) (omode : Nat)
  | link (old new : Path)
  | unlink (path : Path)
  | mkdir (path : Path)
  | mknod (path : Path) (major minor : Int)
  | chdir (path : Path)
  | exec (path : Path) (exec : Exec)
  | dup (fd : Int)
  | close (fd : Int)
  | pipe (argptr : Bool) (kalloc : Option Nat)
  | fork (np : Option Proc)
  | exit

def perform (p : Proc) (cwd : Ip) : Call → Sys Int
  | .open path omode => sysOpen p cwd path omode
  | .link old new => sysLink cwd old new
  | .unlink path => sysUnlink cwd path
  | .mkdir path => sysMkdir cwd path
  | .mknod path major minor => sysMknod cwd path major minor
  | .chdir path => sysChdir p cwd path
  | .exec path result => sysExec cwd path result
  | .dup fd => sysDup p fd
  | .close fd => sysClose p fd
  | .pipe argptr kalloc => sysPipe p argptr kalloc
  | .fork np => fork p cwd np
  | .exit => exit p cwd

/-- `kalloc` returns a page that is not in use, and `fork` an entry that no
process has. -/
def Files.Answers (files : Files) : Call → Prop
  | .pipe _ (some page) => files.allocated page = files.freed page
  | .fork (some np) => files.alive np = false
  | _ => True

instance (files : Files) : (call : Call) → Decidable (files.Answers call)
  | .pipe _ (some _) | .fork (some _) => inferInstanceAs (Decidable (_ = _))
  | .pipe _ none | .fork none | .open .. | .link .. | .unlink _ | .mkdir _ | .mknod ..
  | .chdir _ | .exec .. | .dup _ | .close _ | .exit => inferInstanceAs (Decidable True)

/-- A process makes a call. -/
structure Label where
  p : Proc
  call : Call

namespace State

/-- One call from its start to its end. -/
def step (s : State) (label : Label) : Option State :=
  match s.files.alive label.p, (s.files.proc label.p).cwd with
  | true, some cwd =>
      if s.files.Answers label.call then
        match perform label.p cwd label.call s with
        | .ok (_, next) => some next
        | .error _ => none
      else none
  | _, _ => none

end State

end Xv6.Calls
