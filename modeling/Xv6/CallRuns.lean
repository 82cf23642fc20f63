import Xv6.FsModel
import Xv6.LabelledRuns

/-!
# Calls that run to their end

`Performs` says that a process alone takes its call from one point to another,
and there is a rule for each function of `fs.c` and `sysfile.c` in the case that
a run needs: the inodes are valid and unlocked and keep their links.  A call
that performs is a run of the system.
-/

namespace Xv6.Fs

/-- The process takes steps of its call, and no other process takes any. -/
inductive Performs (pid : Pid) : State → Prog → State → Prog → Prop
  | refl (s : State) (prog : Prog) : Performs pid s prog s prog
  | step {s s' t : State} {prog next last : Prog} (choice : Inum)
      (stepped : prog.step pid choice s = some (s', next))
      (rest : Performs pid s' next t last) : Performs pid s prog t last

attribute [ext] State

variable {pid : Pid} {s t : State} {i d : Inum} {name : Name} {path : List Char}
  {last : Prog}

/-! ## Inodes -/

theorem State.setLock_none (free : s.lock i = none) (owner : Option Pid) :
    (s.setLock i owner).setLock i none = s := by
  rw [State.setLock, State.setLock, Function.update_idem, ← free, Function.update_eq_self]

theorem State.setRef_back (s : State) (i : Inum) (count : Nat) :
    (s.setRef i count).setRef i (s.ref i) = s := by
  rw [State.setRef, State.setRef, Function.update_idem, Function.update_eq_self]

theorem State.setRef_comm (other : i ≠ d) (m n : Nat) :
    (s.setRef d m).setRef i n = (s.setRef i n).setRef d m := by
  simp only [State.setRef, Function.update_comm other]

theorem State.cached_setRef {count : Nat} (used : 0 < s.ref i) (positive : 0 < count) :
    (s.setRef i count).cached = s.cached := by
  apply List.countP_congr
  intro j _
  rw [State.setRef_ref]
  by_cases same : j = i
  · subst same
    simp [used, positive]
  · rw [Function.update_of_ne same]

namespace Performs

theorem trans {r : State} {prog next : Prog} (first : Performs pid s prog r next)
    (rest : Performs pid r next t last) : Performs pid s prog t last := by
  induction first with
  | refl => exact rest
  | step choice stepped _ ih => exact .step choice stepped (ih rest)

theorem acquire {caller : Caller} {next : Prog} (free : s.lock i = none)
    (rest : Performs pid (s.setLock i (some pid)) next t last) :
    Performs pid s (.acquire caller i next) t last :=
  .step 0 (if_pos free) rest

theorem ilock {next : Inode → Prog} (free : s.lock i = none) (valid : s.valid i = true)
    (rest : Performs pid (s.setLock i (some pid)) (next (s.inode i)) t last) :
    Performs pid s (Fs.ilock i next) t last :=
  acquire free (.step 0 (if_pos valid) rest)

theorem release {next : Prog} (free : s.lock i = none)
    (rest : Performs pid s next t last) :
    Performs pid (s.setLock i (some pid)) (.release i next) t last := by
  rw [← State.setLock_none free (some pid)] at rest
  exact .step 0 rfl rest

theorem store {node : Inode} {next : Prog}
    (rest : Performs pid (s.setInode i node) next t last) :
    Performs pid s (.store i node next) t last :=
  .step 0 rfl rest

theorem lastRef {next : Bool → Prog} {is : Bool}
    (eq : (s.valid i && (s.inode i).nlink == 0 && s.ref i == 1) = is)
    (rest : Performs pid s (next is) t last) : Performs pid s (.lastRef i next) t last := by
  subst eq
  exact .step 0 rfl rest

/-- `iput` of an inode that has links. -/
theorem iput {next : Prog} (free : s.lock i = none) (linked : (s.inode i).nlink ≠ 0)
    (rest : Performs pid (s.setRef i (s.ref i - 1)) next t last) :
    Performs pid s (Fs.iput i next) t last := by
  have kept : (s.valid i && (s.inode i).nlink == 0 && s.ref i == 1) = false := by
    rw [beq_eq_false_iff_ne.mpr linked, Bool.and_false, Bool.false_and]
  apply acquire free
  apply lastRef (s := s.setLock i (some pid)) kept
  exact release free (.step 0 rfl rest)

/-- `iput` gives back a reference that the call took. -/
theorem iput_back {next : Prog} (free : s.lock i = none) (linked : (s.inode i).nlink ≠ 0)
    (rest : Performs pid s next t last) :
    Performs pid (s.setRef i (s.ref i + 1)) (Fs.iput i next) t last := by
  apply iput (s := s.setRef i (s.ref i + 1)) free linked
  rwa [State.setRef_ref, Function.update_self, Nat.add_sub_cancel, State.setRef_back]

theorem iunlockput_back {next : Prog} (free : s.lock i = none) (linked : (s.inode i).nlink ≠ 0)
    (rest : Performs pid s next t last) :
    Performs pid ((s.setRef i (s.ref i + 1)).setLock i (some pid)) (Fs.iunlockput i next) t
      last :=
  release free (iput_back free linked rest)

/-- `ilock` of an inode that is not read yet. -/
theorem ilock_invalid {next : Inode → Prog} (free : s.lock i = none)
    (invalid : s.valid i = false) (allocated : (s.inode i).type ≠ .free)
    (rest : Performs pid ((s.setLock i (some pid)).setValid i true) (next (s.inode i)) t last) :
    Performs pid s (Fs.ilock i next) t last := by
  apply acquire free
  refine .step 0 ?_ rest
  rw [Prog.step, State.setLock_valid, State.setLock_inode, invalid, if_neg Bool.false_ne_true,
    if_neg allocated]

theorem ialloc {type : FileType} {next : Inum → Prog} (isFree : s.IsFree i)
    (unused : s.ref i = 0) (few : s.cached < ninode)
    (rest : Performs pid (((s.setInode i (State.newInode type)).setRef i 1).setValid i false)
      (next i) t last) :
    Performs pid s (.ialloc type next) t last := by
  refine .step i ?_ rest
  have entry : (s.setInode i (State.newInode type)).iget i =
      some (((s.setInode i (State.newInode type)).setRef i 1).setValid i false) := by
    have zero : ¬ 0 < (s.setInode i (State.newInode type)).ref i := by
      rw [State.setInode_ref, unused]
      exact Nat.lt_irrefl 0
    have room : ¬ ninode ≤ (s.setInode i (State.newInode type)).cached := Nat.not_le.mpr few
    rw [State.iget, if_neg zero, if_neg room]
  simp only [Prog.step, if_pos isFree, entry]

/-- `ialloc` when every entry of the cache is in use. -/
theorem ialloc_full {type : FileType} {next : Inum → Prog} (isFree : s.IsFree i)
    (unused : s.ref i = 0) (full : ninode ≤ s.cached) :
    Performs pid s (.ialloc type next) (s.setInode i (State.newInode type))
      (.panic .igetNoInodes) := by
  refine .step i ?_ (.refl _ _)
  have entry : (s.setInode i (State.newInode type)).iget i = none := by
    have zero : ¬ 0 < (s.setInode i (State.newInode type)).ref i := by
      rw [State.setInode_ref, unused]
      exact Nat.lt_irrefl 0
    have room : ninode ≤ (s.setInode i (State.newInode type)).cached := full
    rw [State.iget, if_neg zero, if_pos room]
  simp only [Prog.step, if_pos isFree, entry]

theorem idupCwd {next : Inum → Prog} (cwd : s.cwd pid = some d)
    (rest : Performs pid (s.setRef d (s.ref d + 1)) (next d) t last) :
    Performs pid s (.idupCwd next) t last := by
  refine .step 0 ?_ rest
  simp only [Prog.step, cwd]

theorem iget {next : Prog} (used : 0 < s.ref i)
    (rest : Performs pid (s.setRef i (s.ref i + 1)) next t last) :
    Performs pid s (.iget i next) t last := by
  refine .step 0 ?_ rest
  simp only [Prog.step, State.iget, if_pos used]

end Performs

/-! ## Directories -/

theorem dirlookupFrom_none {dirents : List Dirent} {off : Nat}
    (new : ∀ de ∈ dirents, de.name ≠ name) : dirlookupFrom name off dirents = none := by
  induction dirents generalizing off with
  | nil => rfl
  | cons de rest ih =>
      rw [dirlookupFrom, if_neg fun same => new de List.mem_cons_self same.2]
      exact ih fun de member => new de (List.mem_cons_of_mem _ member)

theorem insertDirent_of_used {new : Dirent} {dirents : List Dirent}
    (used : ∀ de ∈ dirents, de.inum ≠ 0) : insertDirent new dirents = dirents ++ [new] := by
  induction dirents with
  | nil => rfl
  | cons de rest ih =>
      rw [insertDirent, if_neg (used de List.mem_cons_self), List.cons_append,
        ih fun de member => used de (List.mem_cons_of_mem _ member)]

/-! ## Paths -/

/-- The current directory of the process has links and is not locked. -/
structure State.Here (s : State) (pid : Pid) (d : Inum) : Prop where
  cwd : s.cwd pid = some d
  type : (s.inode d).type = .dir
  linked : (s.inode d).nlink ≠ 0
  free : s.lock d = none
  valid : s.valid d = true
  used : 0 < s.ref d

theorem State.Here.held (here : s.Here pid d) :
    (s.setRef d (s.ref d + 1)).Here pid d :=
  ⟨here.cwd, here.type, here.linked, here.free, here.valid, by simp [State.setRef_ref]⟩

/-- A call starts with a step. -/
theorem namex_ne_panic (parent : Bool) (path : List Char)
    (next : Option (Inum × Name) → Prog) (message : Panic) :
    namex parent path next ≠ .panic message := by
  rw [namex]
  split <;> exact nofun

/-- The path is a name in the current directory. -/
structure Plain (path : List Char) (name : Name) : Prop where
  relative : path.head? ≠ some '/'
  single : elements path = [name]

namespace Performs

theorem namei {off : Nat} {next : Option Inum → Prog} (here : s.Here pid d)
    (plain : Plain path name) (found : dirlookup (s.inode d) name = some (i, off))
    (other : i ≠ d) (used : 0 < s.ref i)
    (rest : Performs pid (s.setRef i (s.ref i + 1)) (next (some i)) t last) :
    Performs pid s (Fs.namei path next) t last := by
  rw [Fs.namei, namex, if_neg plain.relative]
  apply idupCwd here.cwd
  rw [plain.single, namexFrom]
  apply ilock here.held.free here.held.valid
  rw [if_neg (not_not.mpr here.held.type), if_neg (by simp)]
  simp only [State.setRef_inode, found]
  have same : ((s.setRef d (s.ref d + 1)).setLock d (some pid)).ref i = s.ref i :=
    Function.update_of_ne other _ _
  apply iget (by rwa [same])
  have moved : ((s.setRef d (s.ref d + 1)).setLock d (some pid)).setRef i (s.ref i + 1) =
      ((s.setRef i (s.ref i + 1)).setRef d ((s.setRef i (s.ref i + 1)).ref d + 1)).setLock d
        (some pid) := by
    rw [State.setRef_ref, Function.update_of_ne other.symm, ← State.setRef_comm other]
    rfl
  rw [same, moved]
  apply iunlockput_back (s := s.setRef i (s.ref i + 1)) here.free here.linked
  rwa [namexFrom, if_neg Bool.false_ne_true]

/-- `nameiparent` of a name in the current directory. -/
theorem nameiparent {next : Option (Inum × Name) → Prog} (here : s.Here pid d)
    (plain : Plain path name)
    (rest : Performs pid (s.setRef d (s.ref d + 1)) (next (some (d, name))) t last) :
    Performs pid s (Fs.nameiparent path next) t last := by
  rw [Fs.nameiparent, namex, if_neg plain.relative]
  apply idupCwd here.cwd
  rw [plain.single, namexFrom]
  apply ilock here.held.free here.held.valid
  rw [if_neg (not_not.mpr here.held.type), if_pos ⟨rfl, rfl⟩]
  exact release here.free rest

/-- `dirlink` of a new name, where the directory has room for it. -/
theorem dirlink {inum : Inum} {node : Inode} {next : Option Inode → Prog}
    (isDir : node.type = .dir) (absent : dirlookup node name = none)
    (room : (insertDirent ⟨inum, name⟩ node.dirents).length ≤ maxDirents)
    (rest : Performs pid
      (s.setInode d { node with dirents := insertDirent ⟨inum, name⟩ node.dirents })
      (next (some { node with dirents := insertDirent ⟨inum, name⟩ node.dirents })) t last) :
    Performs pid s (Fs.dirlink d node name inum next) t last := by
  rw [Fs.dirlink, if_neg (not_not.mpr isDir), absent]
  dsimp only
  rw [if_neg room.not_gt]
  exact store rest

end Performs

/-! ## New files -/

/-- The file system with a new file in a directory, and one reference to it. -/
def State.newFile (s : State) (d ip : Inum) (name : Name) : State :=
  (((s.setInode ip ⟨.file, 0, 0, 1, []⟩).setInode d
    { s.inode d with dirents := insertDirent ⟨ip, name⟩ (s.inode d).dirents }).setRef ip 1).setValid
      ip true

/-- The file system with an open file. -/
def State.openedFile (s : State) (pid : Pid) (ip : Inum) (fd : Fin nofile) (f : Fin nfile) :
    State :=
  (s.setFile f ⟨1, some ip⟩).setOfile pid fd (some f)

namespace Performs

/-- `create`, up to `ialloc`. -/
theorem create {type : FileType} {next : Option (Inum × FileType) → Prog}
    (here : s.Here pid d) (plain : Plain path name)
    (absent : dirlookup (s.inode d) name = none)
    (rest : Performs pid ((s.setRef d (s.ref d + 1)).setLock d (some pid))
      (.ialloc type fun ip => createNew d (s.inode d) name ip type 0 0 fun
        | some ip => next (some (ip, type))
        | none => next none) t last) :
    Performs pid s (Fs.create path type 0 0 next) t last := by
  apply nameiparent here plain
  dsimp only
  apply ilock here.held.free here.held.valid
  rw [if_neg (not_not.mpr here.held.type), State.setRef_inode, absent]
  exact rest

/-- `create` of a file with a new name. -/
theorem createFile {ip : Inum} {next : Option (Inum × FileType) → Prog} (here : s.Here pid d)
    (plain : Plain path name) (absent : dirlookup (s.inode d) name = none)
    (room : (insertDirent ⟨ip, name⟩ (s.inode d).dirents).length ≤ maxDirents)
    (isFree : s.IsFree ip) (unused : s.ref ip = 0) (unlocked : s.lock ip = none)
    (entry : s.cached < ninode)
    (rest : Performs pid ((s.newFile d ip name).setLock ip (some pid)) (next (some (ip, .file)))
      t last) :
    Performs pid s (Fs.create path .file 0 0 next) t last := by
  have other : ip ≠ d := by
    rintro rfl
    have isDir := here.type
    rw [isFree.2.2] at isDir
    cases isDir
  have unused' : (s.setRef d (s.ref d + 1)).ref ip = 0 := by
    rwa [State.setRef_ref, Function.update_of_ne other]
  have few : (s.setRef d (s.ref d + 1)).cached < ninode := by
    rwa [State.cached_setRef here.used (Nat.succ_pos _)]
  have unlocked' : (s.setLock d (some pid)).lock ip = none := by
    rwa [State.setLock_lock, Function.update_of_ne other]
  apply create here plain absent
  apply ialloc (s := (s.setRef d (s.ref d + 1)).setLock d (some pid)) isFree unused' few
  rw [createNew]
  refine ilock_invalid unlocked' (Function.update_self ..) ?_ ?_
  · simp [State.newInode]
  simp only [reduceCtorEq, if_false]
  apply store
  apply dirlink here.type absent room
  have free : ((s.newFile d ip name).setLock ip (some pid)).lock d = none := by
    rw [State.setLock_lock, Function.update_of_ne other.symm]
    exact here.free
  have linked : (((s.newFile d ip name).setLock ip (some pid)).inode d).nlink ≠ 0 := by
    simpa [State.newFile] using here.linked
  -- the reference to the directory and its lock are given back
  convert iunlockput_back free linked rest using 1
  have kept : ((s.newFile d ip name).setLock ip (some pid)).ref d = s.ref d := by
    simp [State.newFile, Function.update_of_ne other.symm]
  rw [kept]
  simp only [State.newFile, State.setInode, State.setRef, State.setValid, State.setLock,
    State.newInode, Function.update_idem, Function.update_comm other, Function.update_self]

theorem fileAlloc {fd : Fin nofile} {f : Fin nfile}
    {next : Option (Fin nofile × Fin nfile) → Prog} (found : s.findFile pid = some (fd, f))
    (rest : Performs pid ((s.setFile f ⟨1, none⟩).setOfile pid fd (some f))
      (next (some (fd, f))) t last) :
    Performs pid s (.fileAlloc next) t last := by
  refine .step 0 ?_ rest
  simp only [Prog.step, found]

theorem openFile {fd : Fin nofile} {f : Fin nfile} (found : s.findFile pid = some (fd, f))
    (free : s.lock i = none) :
    Performs pid (s.setLock i (some pid)) (Fs.openFile i) (s.openedFile pid i fd f)
      (.done fd.val) := by
  have installed : ((s.setFile f ⟨1, none⟩).setOfile pid fd (some f)).setFile f ⟨1, some i⟩ =
      s.openedFile pid i fd f := by
    simp only [State.openedFile, State.setFile, State.setOfile, Function.update_idem]
  apply fileAlloc (s := s.setLock i (some pid)) found
  apply release (s := (s.setFile f ⟨1, none⟩).setOfile pid fd (some f)) free
  refine .step 0 ?_ (.refl _ _)
  rw [← installed]
  simp [Prog.step]

/-- `open` with `O_CREATE` of a new name. -/
theorem openNew {ip : Inum} {fd : Fin nofile} {f : Fin nfile} {rdonly : Bool}
    (here : s.Here pid d) (plain : Plain path name) (absent : dirlookup (s.inode d) name = none)
    (room : (insertDirent ⟨ip, name⟩ (s.inode d).dirents).length ≤ maxDirents)
    (isFree : s.IsFree ip) (unused : s.ref ip = 0) (unlocked : s.lock ip = none)
    (entry : s.cached < ninode) (found : s.findFile pid = some (fd, f)) :
    Performs pid s (sysOpen path true rdonly) ((s.newFile d ip name).openedFile pid ip fd f)
      (.done fd.val) := by
  rw [sysOpen, if_pos rfl]
  apply createFile here plain absent room isFree unused unlocked entry
  exact openFile (s := s.newFile d ip name) found unlocked

end Performs

/-! ## Runs of the system -/

namespace System

theorem step_run {sys : System} {prog next : Prog} {choice : Inum}
    (running : sys.panicked = none) (entered : sys.prog pid = some prog)
    (stepped : prog.step pid choice sys.state = some (t, next)) :
    sys.step (.run pid choice) = some (sys.goto pid t next) := by
  rw [System.step, if_pos running]
  cases prog with
  | done result => cases stepped
  | _ => simp only [entered, stepped]

theorem goto_goto (sys : System) (first : Prog) (s : State)
    (continues : ∀ message, first ≠ .panic message) :
    (sys.goto pid s first).goto pid t last = sys.goto pid t last := by
  cases first with
  | panic message => exact absurd rfl (continues message)
  | _ => cases last <;> simp only [System.goto, Function.update_idem]

theorem goto_self {sys : System} {prog : Prog} (entered : sys.prog pid = some prog)
    (continues : ∀ message, prog ≠ .panic message) : sys.goto pid sys.state prog = sys := by
  have same : Function.update sys.prog pid (some prog) = sys.prog := by
    rw [← entered, Function.update_eq_self]
  cases prog with
  | panic message => exact absurd rfl (continues message)
  | _ => simp only [System.goto, same]

theorem goto_running {sys : System} (pid : Pid) (s : State) {prog : Prog}
    (running : sys.panicked = none)
    (continues : ∀ message, prog ≠ .panic message) :
    (sys.goto pid s prog).state = s ∧ (sys.goto pid s prog).panicked = none ∧
      (sys.goto pid s prog).prog pid = some prog := by
  cases prog with
  | panic message => exact absurd rfl (continues message)
  | _ => exact ⟨rfl, running, Function.update_self ..⟩

/-- What a process performs alone is a run. -/
theorem run_performs {prog : Prog} (performs : Performs pid s prog t last) (sys : System)
    (here : sys.state = s) (running : sys.panicked = none) (entered : sys.prog pid = some prog)
    (continues : ∀ message, prog ≠ .panic message) :
    ∃ labels, LabelledRuns.run System.step sys labels = some (sys.goto pid t last) := by
  induction performs generalizing sys with
  | refl s prog =>
      subst here
      exact ⟨[], by rw [goto_self entered continues, LabelledRuns.run_nil]⟩
  | @step s r t prog next last choice stepped rest ih =>
      subst here
      have first := step_run running entered stepped
      by_cases stops : ∃ message, next = .panic message
      · obtain ⟨message, rfl⟩ := stops
        cases rest with
        | refl => exact ⟨[.run pid choice], by simp [LabelledRuns.run, first]⟩
        | step _ stepped => cases stepped
      · rw [not_exists] at stops
        obtain ⟨here, running, entered⟩ := goto_running pid r running stops
        obtain ⟨labels, ran⟩ := ih _ here running entered stops
        rw [goto_goto sys next r stops] at ran
        exact ⟨.run pid choice :: labels, LabelledRuns.run_cons_eq_some.mpr ⟨_, first, ran⟩⟩

theorem step_call (here : (s.cwd pid).isSome) (syscall : Syscall) :
    (quiet s).step (.call pid syscall) = some ((quiet s).enter pid syscall.prog) := by
  simp [System.step, quiet, here]

/-- A call that panics. -/
theorem run_call_panics {syscall : Syscall} {message : Panic} (here : (s.cwd pid).isSome)
    (continues : ∀ message, syscall.prog ≠ .panic message)
    (performs : Performs pid s syscall.prog t (.panic message)) :
    ∃ labels sys, LabelledRuns.run System.step (.quiet s) labels = some sys ∧
      sys.state = t ∧ sys.panicked = some message := by
  obtain ⟨labels, ran⟩ := run_performs performs ((quiet s).enter pid syscall.prog) rfl rfl
    (Function.update_self ..) continues
  exact ⟨_, _, LabelledRuns.run_cons_eq_some.mpr ⟨_, step_call here syscall, ran⟩, rfl, rfl⟩

/-- A call that returns. -/
theorem run_call {syscall : Syscall} {result : Int} (here : (s.cwd pid).isSome)
    (performs : Performs pid s syscall.prog t (.done result)) :
    ∃ labels, LabelledRuns.run System.step (.quiet s) labels = some (.quiet t) := by
  have continues : ∀ message, syscall.prog ≠ .panic message := by
    intro message stops
    rw [stops] at performs
    cases performs with
    | step _ stepped => cases stepped
  obtain ⟨labels, ran⟩ := run_performs performs ((quiet s).enter pid syscall.prog) rfl rfl
    (Function.update_self ..) continues
  have left : (((quiet s).enter pid syscall.prog).goto pid t (.done result)).step (.run pid 0) =
      some (quiet t) := by
    simp [System.step, System.goto, System.leave, System.enter, quiet]
  have last := LabelledRuns.run_cons_eq_some.mpr
    ⟨_, left, LabelledRuns.run_nil (quiet t)⟩
  have all := LabelledRuns.run_append_eq_some.mpr ⟨_, ran, last⟩
  exact ⟨_, LabelledRuns.run_cons_eq_some.mpr ⟨_, step_call here syscall, all⟩⟩

end System

/-- Calls one after another lead from one state to the other. -/
def CallsLead (s t : State) : Prop :=
  ∃ labels, LabelledRuns.run System.step (.quiet s) labels = some (.quiet t)

theorem CallsLead.refl (s : State) : CallsLead s s :=
  ⟨[], rfl⟩

theorem CallsLead.trans {r : State} (first : CallsLead s r) (second : CallsLead r t) :
    CallsLead s t := by
  obtain ⟨before, first⟩ := first
  obtain ⟨after, second⟩ := second
  exact ⟨before ++ after, LabelledRuns.run_append_eq_some.mpr ⟨_, first, second⟩⟩

end Xv6.Fs
