import Xv6.LockOrder
import Xv6.InodeLocks

/-!
# The order of inode locks

Every system call on inodes respects the views of `InodeLocks`: it locks a
second inode by `ilock` only when the first is a directory that names it, or
that is older.  `iput` also locks its inode, and it is called with another
inode locked in `dirlink`, `sys_unlink` and `create`.  Where no such `iput`
waits for an inode that is not below the locked one, nobody waits for itself.
-/

namespace Xv6.Fs

/-! ## The calls respect their views -/

section Calls

variable {v : View} {i : Inum} {next : Prog}
  {locks : List (Inum × Option Inode)} {refs : List (Inum × Option FileType)}

attribute [local simp] Safe in
theorem safe_iput {type : Option FileType}
    (refsEq : v.refs.Perm ((i, type) :: refs))
    (rest : Safe next ⟨v.locks, refs, [], none⟩) : Safe (iput i next) v := by
  have member : i ∈ v.refs.map Prod.fst := by
    rw [(refsEq.map Prod.fst).mem_iff]
    exact List.mem_cons_self
  rw [iput, Safe]
  refine ⟨nofun, ?_⟩
  rw [Safe]
  refine ⟨List.mem_cons_self, member, ?_, fun once => ?_⟩
  · rw [if_neg Bool.false_ne_true, Safe]
    refine ⟨none, v.locks, List.Perm.refl _, ?_⟩
    rw [Safe]
    exact ⟨type, refs, refsEq, rest⟩
  · have absent : i ∉ refs.map Prod.fst := by
      have count := View.count_cons refsEq i
      change v.count i = 1 at once
      simp only [refers, if_true] at count
      rw [← List.count_eq_zero]
      omega
    rw [if_pos rfl, Safe]
    refine ⟨rfl, v.locks, type, refs, List.Perm.refl _, refsEq, absent, ?_⟩
    rw [Safe]
    refine ⟨none, v.locks, List.Perm.refl _, ?_⟩
    rw [Safe]
    exact ⟨none, refs, List.Perm.refl _, rest⟩

theorem safe_iunlockput {node : Option Inode} {type : Option FileType}
    (locksEq : v.locks.Perm ((i, node) :: locks))
    (refsEq : v.refs.Perm ((i, type) :: refs))
    (rest : Safe next ⟨locks, refs, [], none⟩) : Safe (iunlockput i next) v := by
  rw [iunlockput, Safe]
  exact ⟨node, locks, locksEq, safe_iput refsEq rest⟩

theorem safe_ilock {type : Option FileType} {next : Inode → Prog}
    (leads : v.Leads i) (refsEq : v.refs.Perm ((i, type) :: refs))
    (rest : ∀ node, node.type ≠ .free →
      (∀ seen, type = some seen → node.type = seen) →
      Safe (next node)
        { v with
          locks := (i, some node) :: v.locks
          refs := (i, some node.type) :: refs }) :
    Safe (ilock i next) v := by
  rw [ilock, Safe]
  refine ⟨fun _ => leads, ?_⟩
  rw [Safe]
  exact ⟨none, v.locks, type, refs, List.Perm.refl _, refsEq, rest⟩

theorem leads_of_unlocked (i : Inum) (refs : List (Inum × Option FileType))
    (younger : List (Inum × Inum)) (sole : Option Inum) :
    View.Leads ⟨[], refs, younger, sole⟩ i := by
  intro entry member
  simp at member

theorem safe_dirlink {dp inum : Inum} {node : Inode} {name : Name}
    {next : Option Inode → Prog}
    (locksEq : v.locks.Perm ((dp, some node) :: locks))
    (entry : v.MayName dp ⟨inum, name⟩)
    (present : Safe (next none) { v with younger := [], sole := none })
    (absent : ∀ changed : Inode, changed.type = node.type →
      Safe (next (some changed)) { v with locks := (dp, some changed) :: locks }) :
    Safe (dirlink dp node name inum next) v := by
  rw [dirlink]
  split
  · trivial
  · split
    next other off found =>
        rw [Safe]
        exact safe_iput (List.Perm.refl _) present
    next =>
        dsimp only
        split
        · trivial
        · rw [Safe]
          refine ⟨node, locks, locksEq, rfl, ?_, absent _ rfl⟩
          intro de member
          rcases mem_insertDirent member with rfl | old
          · exact Or.inr entry
          · exact Or.inl old

theorem safe_namexFrom {parent : Bool} {next : Option (Inum × Name) → Prog}
    (found : ∀ ip name type,
      Safe (next (some (ip, name))) ⟨[], (ip, type) :: refs, [], none⟩)
    (failed : Safe (next none) ⟨[], refs, [], none⟩) (names : List Name) :
    ∀ ip type, Safe (namexFrom parent next ip names)
      ⟨[], (ip, type) :: refs, [], none⟩ := by
  induction names with
  | nil =>
      intro ip type
      rw [namexFrom]
      split
      · exact safe_iput (List.Perm.refl _) failed
      · exact found ip [] type
  | cons name rest ih =>
      intro ip type
      rw [namexFrom]
      apply safe_ilock (leads_of_unlocked ip _ _ _) (List.Perm.refl _)
      intro node _ _
      split
      · exact safe_iunlockput (List.Perm.refl _) (List.Perm.refl _) failed
      · split
        · rw [Safe]
          exact ⟨_, _, List.Perm.refl _, found ip name _⟩
        · split
          · exact safe_iunlockput (List.Perm.refl _) (List.Perm.refl _) failed
          next inum off _ =>
              rw [Safe]
              exact safe_iunlockput (List.Perm.refl _) (List.Perm.swap _ _ _)
                (ih inum none)

theorem safe_namex {parent : Bool} {path : List Char}
    {next : Option (Inum × Name) → Prog}
    (found : ∀ ip name type,
      Safe (next (some (ip, name))) ⟨[], (ip, type) :: refs, [], none⟩)
    (failed : Safe (next none) ⟨[], refs, [], none⟩) :
    Safe (namex parent path next) ⟨[], refs, [], none⟩ := by
  rw [namex]
  split
  · rw [Safe]
    exact safe_namexFrom found failed _ _ none
  · rw [Safe]
    intro ip
    exact safe_namexFrom found failed _ _ none

theorem safe_namei {path : List Char} {next : Option Inum → Prog}
    (found : ∀ ip type, Safe (next (some ip)) ⟨[], (ip, type) :: refs, [], none⟩)
    (failed : Safe (next none) ⟨[], refs, [], none⟩) :
    Safe (namei path next) ⟨[], refs, [], none⟩ :=
  safe_namex (fun ip _ type => found ip type) failed

theorem safe_linkBad {type : Option FileType} :
    Safe (linkBad i) ⟨[], [(i, type)], [], none⟩ := by
  rw [linkBad]
  apply safe_ilock (leads_of_unlocked i _ _ _) (List.Perm.refl _)
  intro node _ _
  rw [Safe]
  refine ⟨node, [], List.Perm.refl _, rfl, fun de member => Or.inl member, ?_⟩
  exact safe_iunlockput (List.Perm.refl _) (List.Perm.refl _) rfl

theorem safe_sysLink (old new : List Char) : Safe (sysLink old new) .empty := by
  rw [sysLink]
  apply safe_namei
  · intro ip type
    apply safe_ilock (leads_of_unlocked ip _ _ _) (List.Perm.refl _)
    intro node _ _
    split
    · exact safe_iunlockput (List.Perm.refl _) (List.Perm.refl _) rfl
    next notDir =>
        rw [Safe]
        refine ⟨node, [], List.Perm.refl _, rfl, fun de member => Or.inl member, ?_⟩
        rw [Safe]
        refine ⟨_, [], List.Perm.refl _, ?_⟩
        apply safe_namex
        · intro dp name type
          apply safe_ilock (leads_of_unlocked dp _ _ _) (List.Perm.refl _)
          intro dnode _ _
          apply safe_dirlink (List.Perm.refl _)
          · refine Or.inr (Or.inr (Or.inl ⟨node.type, notDir, ?_⟩))
            exact List.mem_cons_of_mem _ List.mem_cons_self
          · exact safe_iunlockput (List.Perm.refl _) (List.Perm.refl _) safe_linkBad
          · intro changed _
            apply safe_iunlockput (List.Perm.refl _) (List.Perm.refl _)
            exact safe_iput (List.Perm.refl _) rfl
        · exact safe_linkBad
  · rfl

/-- The end of `sys_unlink`, with the entry cleared. -/
theorem safe_unlinked {dp : Inum} {dnode node : Inode}
    {typeDp type : Option FileType} :
    Safe
      (iunlockput dp <| .store i { node with nlink := node.nlink - 1 } <|
        iunlockput i (.done 0))
      ⟨[(dp, some dnode), (i, some node)], [(i, type), (dp, typeDp)], [], none⟩ := by
  apply safe_iunlockput (List.Perm.refl _) (List.Perm.swap _ _ _)
  rw [Safe]
  refine ⟨node, [], List.Perm.refl _, rfl, fun de member => Or.inl member, ?_⟩
  exact safe_iunlockput (List.Perm.refl _) (List.Perm.refl _) rfl

theorem safe_sysUnlink (path : List Char) : Safe (sysUnlink path) .empty := by
  rw [sysUnlink, nameiparent]
  apply safe_namex
  · intro dp name type
    apply safe_ilock (leads_of_unlocked dp _ _ _) (List.Perm.refl _)
    intro dnode _ _
    split
    · exact safe_iunlockput (List.Perm.refl _) (List.Perm.refl _) rfl
    next proper =>
        rw [not_or] at proper
        split
        · trivial
        next isDir =>
            rw [not_not] at isDir
            split
            · exact safe_iunlockput (List.Perm.refl _) (List.Perm.refl _) rfl
            next inum off found =>
                rw [Safe]
                apply safe_ilock _ (List.Perm.refl _)
                · intro node _ _
                  split
                  · trivial
                  · split
                    · apply safe_iunlockput (List.Perm.refl _) (List.Perm.refl _)
                      exact safe_iunlockput (List.Perm.refl _) (List.Perm.refl _) rfl
                    · rw [Safe]
                      refine ⟨dnode, _, List.Perm.swap _ _ _, rfl, ?_, ?_⟩
                      · intro de member
                        rcases List.mem_or_eq_of_mem_set member with old | rfl
                        · exact Or.inl old
                        · exact Or.inr (Or.inl rfl)
                      · dsimp only
                        split
                        · rw [Safe]
                          exact ⟨_, _, List.Perm.refl _, rfl,
                            fun de member => Or.inl member, safe_unlinked⟩
                        · exact safe_unlinked
                · intro entry member
                  rw [List.mem_singleton] at member
                  subst member
                  exact ⟨dnode, rfl, isDir, Or.inl (names_of_dirlookup found proper)⟩
  · rfl

theorem safe_createNew {dp ip : Inum} {dnode : Inode} {name : Name}
    {type : FileType} {major minor : Int} {next : Option Inum → Prog}
    (isDir : dnode.type = .dir)
    (rest : ∀ node, Safe (next (some ip))
      ⟨[(ip, some node)], [(ip, some type)], [], none⟩) :
    Safe (createNew dp dnode name ip type major minor next)
      ⟨[(dp, some dnode)], [(ip, some type), (dp, some dnode.type)],
        [(dp, ip)], none⟩ := by
  rw [createNew]
  apply safe_ilock _ (List.Perm.refl _)
  · intro node _ seen
    obtain seen := seen type rfl
    dsimp only
    rw [Safe]
    refine ⟨node, _, List.Perm.refl _, rfl, fun de member => Or.inl member, ?_⟩
    have link : ∀ parent child : Inode,
        Safe
          (dirlink dp parent name ip fun linked =>
            linked.elim (.panic .createDirlink) fun _ => iunlockput dp (next (some ip)))
          ⟨[(ip, some child), (dp, some parent)],
            [(ip, some type), (dp, some dnode.type)], [(dp, ip)], none⟩ := by
      intro parent child
      apply safe_dirlink (List.Perm.swap _ _ _)
      · exact Or.inr (Or.inr (Or.inr List.mem_cons_self))
      · trivial
      · intro changed _
        exact safe_iunlockput (List.Perm.refl _) (List.Perm.swap _ _ _) (rest child)
    rw [seen]
    split
    · rw [Safe]
      refine ⟨dnode, _, List.Perm.swap _ _ _, rfl, fun de member => Or.inl member, ?_⟩
      apply safe_dirlink (List.Perm.swap _ _ _)
      · exact Or.inr (Or.inl fun proper => proper.1 rfl)
      · trivial
      · intro changed _
        apply safe_dirlink (List.Perm.refl _)
        · exact Or.inr (Or.inl fun proper => proper.2 rfl)
        · trivial
        · intro changed _
          exact link _ changed
    · exact link dnode _
  · intro entry member
    rw [List.mem_singleton] at member
    subst member
    exact ⟨dnode, rfl, isDir, Or.inr List.mem_cons_self⟩

theorem safe_create {path : List Char} {type : FileType} {major minor : Int}
    {next : Option (Inum × FileType) → Prog} (nonfree : type ≠ .free)
    (made : ∀ ip seen node, Safe (next (some (ip, seen)))
      ⟨[(ip, some node)], [(ip, some seen)], [], none⟩)
    (failed : Safe (next none) .empty) :
    Safe (create path type major minor next) .empty := by
  rw [create, nameiparent]
  apply safe_namex
  · intro dp name typeDp
    apply safe_ilock (leads_of_unlocked dp _ _ _) (List.Perm.refl _)
    intro dnode _ _
    split
    · trivial
    next isDir =>
        rw [not_not] at isDir
        split
        next inum off found =>
            rw [Safe]
            apply safe_iunlockput (List.Perm.refl _) (List.Perm.swap _ _ _)
            apply safe_ilock (leads_of_unlocked inum _ _ _) (List.Perm.refl _)
            intro node _ _
            split
            · exact made inum node.type node
            · exact safe_iunlockput (List.Perm.refl _) (List.Perm.refl _) failed
        next =>
            rw [Safe]
            refine ⟨nonfree, fun ip => ?_⟩
            exact safe_createNew isDir fun node => made ip type node
  · exact failed

theorem safe_openFile {type : Option FileType} {node : Option Inode} :
    Safe (openFile i) ⟨[(i, node)], [(i, type)], [], none⟩ := by
  rw [openFile, Safe]
  intro found
  match found with
  | none => exact safe_iunlockput (List.Perm.refl _) (List.Perm.refl _) rfl
  | some (fd, f) =>
      rw [Safe]
      refine ⟨node, [], List.Perm.refl _, ?_⟩
      rw [Safe]
      exact ⟨type, [], List.Perm.refl _, rfl⟩

theorem safe_sysOpen (path : List Char) (create? rdonly : Bool) :
    Safe (sysOpen path create? rdonly) .empty := by
  rw [sysOpen]
  split
  · exact safe_create nofun (fun ip seen node => safe_openFile) rfl
  · apply safe_namei
    · intro ip type
      apply safe_ilock (leads_of_unlocked ip _ _ _) (List.Perm.refl _)
      intro node _ _
      split
      · exact safe_iunlockput (List.Perm.refl _) (List.Perm.refl _) rfl
      · exact safe_openFile
    · rfl

theorem safe_sysMkdir (path : List Char) : Safe (sysMkdir path) .empty := by
  rw [sysMkdir]
  refine safe_create nofun ?_ rfl
  intro ip seen node
  exact safe_iunlockput (List.Perm.refl _) (List.Perm.refl _) rfl

theorem safe_sysMknod (path : List Char) (major minor : Int) :
    Safe (sysMknod path major minor) .empty := by
  rw [sysMknod]
  refine safe_create nofun ?_ rfl
  intro ip seen node
  exact safe_iunlockput (List.Perm.refl _) (List.Perm.refl _) rfl

theorem safe_sysChdir (path : List Char) : Safe (sysChdir path) .empty := by
  rw [sysChdir]
  apply safe_namei
  · intro ip type
    apply safe_ilock (leads_of_unlocked ip _ _ _) (List.Perm.refl _)
    intro node _ _
    split
    · exact safe_iunlockput (List.Perm.refl _) (List.Perm.refl _) rfl
    · rw [Safe]
      refine ⟨_, [], List.Perm.refl _, ?_⟩
      rw [Safe]
      intro cwd
      apply safe_iput (List.Perm.refl _)
      rw [Safe]
      exact ⟨_, [], List.Perm.refl _, rfl⟩
  · rfl

theorem safe_sysExec (path : List Char) : Safe (sysExec path) .empty := by
  rw [sysExec]
  apply safe_namei
  · intro ip type
    apply safe_ilock (leads_of_unlocked ip _ _ _) (List.Perm.refl _)
    intro node _ _
    exact safe_iunlockput (List.Perm.refl _) (List.Perm.refl _) rfl
  · rfl

theorem safe_fileclose {fd : Fin nofile} {closed : Prog}
    (otherwise : Safe closed .empty) (rest : Safe next .empty) :
    Safe (fileclose fd closed next) .empty := by
  rw [fileclose, Safe]
  refine ⟨otherwise, rest, fun ip => ?_⟩
  exact safe_iput (List.Perm.refl _) rest

theorem safe_closeAll (rest : Safe next .empty) (fds : List (Fin nofile)) :
    Safe (closeAll next fds) .empty := by
  induction fds with
  | nil => exact rest
  | cons fd fds ih => exact safe_fileclose ih ih

theorem safe_sysExit : Safe sysExit .empty := by
  rw [sysExit]
  apply safe_closeAll
  rw [Safe]
  intro cwd
  exact safe_iput (List.Perm.refl _) rfl

/-- Every system call respects the views. -/
theorem safe_syscall (syscall : Syscall) : Safe syscall.prog .empty := by
  cases syscall with
  | «open» path create? rdonly => exact safe_sysOpen path create? rdonly
  | link old new => exact safe_sysLink old new
  | unlink path => exact safe_sysUnlink path
  | mkdir path => exact safe_sysMkdir path
  | mknod path major minor => exact safe_sysMknod path major minor
  | chdir path => exact safe_sysChdir path
  | exec path => exact safe_sysExec path
  | close fd => exact safe_fileclose rfl rfl
  | exit => exact safe_sysExit
  | fork child => rfl

end Calls

/-! ## Waiting -/

/-- A file system between calls: no inode is locked, the references are
counted, and the directories form a hierarchy. -/
structure Mounted (s : State) : Prop where
  unlocked : ∀ i, s.lock i = none
  counted : ∃ pids : Finset Pid, (∀ pid, pid ∉ pids → s.cwd pid = none) ∧
    ∀ i, s.ref i = s.held pids i
  cached : s.CacheOk
  numbered : ∀ i, (s.inode i).type ≠ .free → i < s.ninodes
  hierarchy : ∃ depth : Inum → Nat, DirsOrdered s.inode depth

theorem Mounted.bounded {s : State} (mounted : Mounted s) : s.Bounded := by
  intro i beyond
  refine ⟨?_, mounted.unlocked i⟩
  by_contra allocated
  exact Nat.not_lt.mpr beyond (mounted.numbered i allocated)

namespace System

/-- The inode whose lock a process is about to acquire. -/
def wants (s : System) (pid : Pid) : Option Inum :=
  match s.prog pid with
  | some (.acquire _ i _) => some i
  | _ => none

/-- The waits-for relation on inode locks. -/
def WaitsFor (s : System) : Pid → Pid → Prop :=
  LockOrder.WaitsFor s.wants s.state.lock

/-- Each `iput` that has to wait is called with no inodes locked other than
directories that name its inode. -/
def IputsOrdered (s : System) : Prop :=
  ∀ pid i next, s.prog pid = some (.acquire .iput i next) →
    (s.state.lock i).isSome → ∀ h, s.state.lock h = some pid →
      (s.state.inode h).type = .dir ∧ (s.state.inode h).Names i

end System

/-- Views, births and references exist that make the system consistent. -/
def Orderly (sys : System) : Prop :=
  ∃ views pids birth clock, Consistent sys views pids birth clock

theorem orderly_of_mounted {s : State} (mounted : Mounted s) :
    Orderly (.quiet s) := by
  obtain ⟨pids, cwd, counted⟩ := mounted.counted
  obtain ⟨depth, hierarchy⟩ := mounted.hierarchy
  have emptyOk : View.empty.Ok s depth := by
    refine ⟨List.nodup_nil, ?_, ?_, ?_, ?_⟩ <;> intros <;>
      simp [View.empty] at *
  refine ⟨fun _ => .empty, pids, depth,
    (Finset.range s.ninodes).sup depth + 1, ?_, ?_, ?_, ?_, ?_⟩
  · refine ⟨fun _ => emptyOk, ?_, ?_, ?_, fun p absent => ⟨cwd p absent, rfl⟩, ?_,
      hierarchy⟩
    · intro i pid
      change s.lock i = some pid ↔ _
      simp [mounted.unlocked, View.empty]
    · intro pid i only
      simp [View.empty] at only
    · intro i
      have none : ∑ pid ∈ pids, View.empty.count i = 0 := by
        simp [View.empty, View.count]
      have total : s.ref i = s.held pids i := counted i
      change s.held pids i + ∑ pid ∈ pids, View.empty.count i ≤ s.ref i
      omega
    · intro i allocated
      apply Nat.lt_succ_of_le
      apply Finset.le_sup (f := depth)
      exact Finset.mem_range.mpr (mounted.numbered i allocated)
  · intro pid prog entered
    cases entered
  · intro pid _
    rfl
  · intro pid entered
    cases entered
  · exact fun _ => mounted.cached

/-- Waiting processes respect the order of the inodes. -/
theorem Consistent.ordered {sys : System} {views : Pid → View}
    {pids : Finset Pid} {birth : Inum → Nat} {clock : Nat}
    (consistent : Consistent sys views pids birth clock)
    (iputs : sys.IputsOrdered) :
    LockOrder.Ordered sys.wants sys.state.lock
      (fun i => (sys.state.inode i).type = .dir) birth := by
  intro pid wanted owned wants contended owns
  have shared := consistent.shared
  unfold System.wants at wants
  split at wants
  next caller i next entered =>
      cases wants
      cases caller with
      | ilock =>
          obtain ⟨entry, member, same⟩ :=
            List.mem_map.mp ((shared.owner owned pid).mp owns)
          obtain ⟨node, contents, isDir, below⟩ :=
            (consistent.safe pid _ entered).1 rfl entry member
          have known : (owned, some node) ∈ (views pid).locks := by
            rw [← same, ← contents]
            exact member
          have inode := ((shared.ok pid).known owned node known).1
          have ownedDir : (sys.state.inode owned).type = .dir := by
            rw [inode, isDir]
          refine ⟨ownedDir, fun wantedDir => ?_⟩
          rcases below with names | younger
          · exact shared.ordered owned wanted ownedDir (by rwa [inode]) wantedDir
          · rw [same] at younger
            exact ((shared.ok pid).younger owned wanted younger).1
      | iput =>
          obtain ⟨isDir, names⟩ := iputs pid wanted next entered contended owned owns
          exact ⟨isDir, shared.ordered owned wanted isDir names⟩
  next => cases wants

/-- Whatever calls the processes make and however their steps interleave, as
long as no `iput` waits out of order no process waits for itself. -/
theorem waitsFor_acyclic_of_iputsOrdered {start : State} (mounted : Mounted start)
    {labels : List Label} {sys : System}
    (ran : LabelledRuns.run System.step (.quiet start) labels = some sys)
    (iputs : sys.IputsOrdered) (pid : Pid) :
    ¬ Relation.TransGen sys.WaitsFor pid pid := by
  have reached : Orderly sys := by
    refine LabelledRuns.invariant_of_run ?_ (orderly_of_mounted mounted) ran
    rintro before label after ⟨views, pids, birth, clock, consistent⟩ stepped
    exact consistent.step safe_syscall stepped
  obtain ⟨views, pids, birth, clock, consistent⟩ := reached
  exact LockOrder.waitsFor_acyclic (consistent.ordered iputs) pid

/-- A root directory, the current directory of two processes, with one
file. -/
def oneFile : State where
  inode
    | 1 => ⟨.dir, 0, 0, 1, [⟨1, ['.']⟩, ⟨1, ['.', '.']⟩, ⟨2, ['f']⟩]⟩
    | 2 => ⟨.file, 0, 0, 1, []⟩
    | _ => ⟨.free, 0, 0, 0, []⟩
  ninodes := 200
  ref i := if i = 1 then 2 else 0
  valid _ := false
  lock _ := none
  cwd pid := if pid < 2 then some 1 else none
  ofile _ _ := none
  ftable _ := ⟨0, none⟩

theorem oneFile_allocated {i : Inum} (allocated : (oneFile.inode i).type ≠ .free) :
    i = 1 ∨ i = 2 := by
  match i with
  | 0 => exact absurd rfl allocated
  | 1 => exact Or.inl rfl
  | 2 => exact Or.inr rfl
  | i + 3 => exact absurd rfl allocated

theorem oneFile_mounted : Mounted oneFile := by
  refine ⟨fun _ => rfl, ⟨Finset.range 2, ?_, ?_⟩, ?_, ?_, fun _ => 0, ?_⟩
  · intro pid absent
    simpa [oneFile] using absent
  · intro i
    by_cases root : i = 1
    · subst root
      decide
    · simp [State.held, refers, oneFile, root, Ne.symm root]
  · intro i valid
    cases valid
  · intro i allocated
    change i < 200
    rcases oneFile_allocated allocated with rfl | rfl
    · decide
    · decide
  · rintro h i isDir ⟨_, de, member, rfl, proper⟩ childDir
    exfalso
    have allocated : (oneFile.inode h).type ≠ .free := by simp [isDir]
    rcases oneFile_allocated allocated with rfl | rfl
    · simp only [oneFile, List.mem_cons, List.not_mem_nil, or_false] at member
      rcases member with rfl | rfl | rfl
      · exact proper.1 rfl
      · exact proper.2 rfl
      · cases childDir
    · cases isDir

/-- Process 0 runs `link("f", ".")`. -/
def linkToDot : List Label :=
  Label.call 0 (.link ['f'] ['.']) :: List.replicate 20 (Label.run 0 0)

/-- `link("f", ".")` locks the current directory, finds "." in it and calls
`iput` on the directory that it has locked. -/
theorem link_to_dot_waits_for_itself :
    Mounted oneFile ∧
      ∃ sys, LabelledRuns.run System.step (.quiet oneFile) linkToDot = some sys ∧
        sys.WaitsFor 0 0 ∧ Relation.TransGen sys.WaitsFor 0 0 := by
  have stuck : ((LabelledRuns.run System.step (.quiet oneFile) linkToDot).map
      fun sys => (sys.wants 0, sys.state.lock 1)) = some (some 1, some 0) := by
    decide +kernel
  obtain ⟨sys, ran, ends⟩ := Option.map_eq_some_iff.mp stuck
  rw [Prod.mk.injEq] at ends
  have waits : sys.WaitsFor 0 0 := ⟨1, ends⟩
  exact ⟨oneFile_mounted, sys, ran, waits, .single waits⟩

/-- The process that takes a step. -/
def Label.pid : Label → Pid
  | .call pid _ | .run pid _ => pid

theorem System.step_prog {s next : System} {label : Label} {p : Pid}
    (stepped : s.step label = some next) (other : p ≠ label.pid) :
    next.prog p = s.prog p := by
  unfold System.step at stepped
  split at stepped
  next =>
      split at stepped
      next pid syscall =>
          split at stepped
          next =>
              cases stepped
              exact Function.update_of_ne other _ _
          next => cases stepped
      next pid choice =>
          split at stepped
          next =>
              cases stepped
              exact Function.update_of_ne other _ _
          next =>
              split at stepped
              next state after moved =>
                  cases stepped
                  cases after <;> exact Function.update_of_ne other _ _
              next => cases stepped
          next => cases stepped
  next => cases stepped

/-- Process 1 has locked the file to open it; process 0 makes a link of that name,
finds the file in the directory that it has locked, and waits in `iput`. -/
def linkDuringOpen : List Label :=
  Label.call 0 (.link ['f'] ['f']) :: List.replicate 13 (Label.run 0 0) ++
    Label.call 1 (.open ['f'] false true) :: List.replicate 10 (Label.run 1 0) ++
    List.replicate 7 (Label.run 0 0)

theorem linkDuringOpen_acyclic :
    ∃ sys, LabelledRuns.run System.step (.quiet oneFile) linkDuringOpen = some sys ∧
      sys.WaitsFor 0 1 ∧ sys.state.lock 1 = some 0 ∧
      ∀ pid, ¬ Relation.TransGen sys.WaitsFor pid pid := by
  have ended : ((LabelledRuns.run System.step (.quiet oneFile) linkDuringOpen).map
      fun sys => ((sys.wants 0, sys.wants 1), (sys.state.lock 1, sys.state.lock 2),
        ((sys.state.inode 1).type, (sys.state.inode 1).dirents))) =
      some ((some 2, none), (some 0, some 1), (.dir, (oneFile.inode 1).dirents)) := by
    decide +kernel
  have soleLock : ∀ sys ∈ LabelledRuns.run System.step (.quiet oneFile) linkDuringOpen,
      ∀ h < sys.state.ninodes, sys.state.lock h = some 0 → h = 1 := by
    decide +kernel
  obtain ⟨sys, ran, fields⟩ := Option.map_eq_some_iff.mp ended
  simp only [Prod.mk.injEq] at fields
  obtain ⟨⟨waits, fills⟩, ⟨owned, held⟩, isDir, dirents⟩ := fields
  have sole := soleLock sys ran
  have meets : LabelledRuns.RunMeets System.step
      (fun s label => s.OnDisk label ∧ label.pid < 2) (.quiet oneFile) linkDuringOpen := by
    decide +kernel
  have bounded : sys.state.Bounded ∧ ∀ p, 2 ≤ p → sys.prog p = none := by
    have kept : ∀ {s : System} {label : Label} {next : System},
        (s.state.Bounded ∧ ∀ p, 2 ≤ p → s.prog p = none) → s.OnDisk label ∧ label.pid < 2 →
        System.step s label = some next →
        next.state.Bounded ∧ ∀ p, 2 ≤ p → next.prog p = none := by
      intro s label next holds guard stepped
      refine ⟨System.bounded_step holds.1 guard.1 stepped, fun p above => ?_⟩
      rw [System.step_prog stepped (Nat.ne_of_gt (Nat.lt_of_lt_of_le guard.2 above))]
      exact holds.2 p above
    exact LabelledRuns.invariant_of_runMeets kept ⟨oneFile_mounted.bounded, fun _ _ => rfl⟩
      meets ran
  refine ⟨sys, ran, ⟨2, waits, held⟩, owned,
    waitsFor_acyclic_of_iputsOrdered oneFile_mounted ran ?_⟩
  intro pid i next entered contended h owns
  have wants : sys.wants pid = some i := by
    unfold System.wants
    rw [entered]
  match pid with
  | 0 =>
    cases waits.symm.trans wants
    have inside : h < sys.state.ninodes := by
      by_contra beyond
      have unlocked := (bounded.1 h (Nat.le_of_not_lt beyond)).2
      cases owns.symm.trans unlocked
    rw [sole h inside owns]
    exact ⟨isDir, by decide, ⟨2, ['f']⟩, by rw [dirents]; decide, rfl, by decide⟩
  | 1 => cases fills.symm.trans wants
  | pid + 2 => cases (bounded.2 (pid + 2) (Nat.le_add_left 2 pid)).symm.trans entered

end Xv6.Fs
