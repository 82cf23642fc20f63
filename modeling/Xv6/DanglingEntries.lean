import Xv6.FsCalls

/-!
# Dangling directory entries

Runs in which the calls are executed one at a time.  A removed directory that
is still in use keeps its ".." entry, and nothing keeps the inode that this
entry names from being freed.  As long as no inode is freed that the ".." of
another directory in use names, every entry of a directory that can be reached
or is held names an allocated inode, and no lookup meets a free inode.
-/

namespace Xv6.Fs

theorem Inv.weaken {dots links dots' links' : Prop} {s : State}
    {mine : List Inum} {extra : Option Inum} (inv : Inv dots links s mine extra)
    (fewerDots : dots' → dots) (fewerLinks : links' → links) :
    Inv dots' links' s mine extra :=
  { inv with
    tree :=
      { inv.tree with
        exact := fun exactly => inv.tree.exact (fewerLinks exactly)
        rooted := fun exactly => inv.tree.rooted (fewerLinks exactly) }
    kept := fun exactly => inv.kept (fewerLinks exactly)
    live := fun dotted => inv.live (fewerDots dotted) }

/-- A consistent file system between calls: exact link counts, a tree of
directories, no dangling entries and exact reference counts. -/
def ConsistentImage (s : State) : Prop :=
  Inv True True s [] none

/-- Without removed inodes it does not matter which ones have been read. -/
theorem ConsistentImage.unread {s : State} (image : ConsistentImage s)
    (linked : ∀ i, (s.inode i).type ≠ .free → (s.inode i).nlink ≠ 0) :
    ConsistentImage { s with valid := fun _ => false } where
  tree := image.tree
  counted := image.counted
  cached := nofun
  kept _ i allocated unlinked := absurd unlinked (linked i allocated)
  files := image.files
  live dotted i live := by
    have before : Live s i :=
      Live.of_same_inodes s { s with valid := fun _ => false } rfl
        (fun _ positive => .held positive) live
    exact image.live dotted i before

namespace System

/-- A call starts only when no other is in progress. -/
def OneAtATime (s : System) : Label → Prop
  | .call _ _ => s.busy = []
  | .run _ _ => True

/-- The step meets the conditions for its call. -/
def Allows (dots links : Prop) (s : System) : Label → Prop
  | .call _ _ => True
  | .run pid _ => ∀ prog, s.prog pid = some prog → Guard dots links pid s.state prog

/-- At most one process is in a call, and its call will restore the file
system. -/
structure Settled (dots links : Prop) (s : System) : Prop where
  panicked : ∀ message, s.panicked = some message → dots → message ≠ .noType
  calls : (s.busy = [] ∧ (∀ p, s.prog p = none) ∧ Inv dots links s.state [] none) ∨
    ∃ pid prog, s.busy = [pid] ∧ s.prog pid = some prog ∧
      (∀ p, p ≠ pid → s.prog p = none) ∧
      Wp dots links pid (fun s => Inv dots links s [] none) s.state prog

end System

section Runs

variable {dots links : Prop}

theorem post_of_done {pid : Pid} {post : State → Prop} {s : State} {result : Int}
    (wp : Wp dots links pid post s (.done result)) : post s := by
  cases wp with
  | done holds => exact holds
  | step active _ => exact active.elim

theorem allowed_of_panic {pid : Pid} {post : State → Prop} {s : State}
    {message : Panic} (wp : Wp dots links pid post s (.panic message)) :
    dots → message ≠ .noType := by
  cases wp with
  | panic allowed => exact allowed
  | step active _ => exact active.elim

theorem wp_of_step {pid : Pid} {post : State → Prop} {s s' : State}
    {prog after : Prog} {choice : Inum} (wp : Wp dots links pid post s prog)
    (guard : Guard dots links pid s prog)
    (stepped : prog.step pid choice s = some (s', after)) :
    Wp dots links pid post s' after := by
  cases wp with
  | done _ => cases stepped
  | panic _ => cases stepped
  | step _ next => exact next choice s' after guard stepped

namespace System

variable {s s' : System}

theorem Settled.enter (settled : s.Settled dots links) {pid : Pid}
    (quiet : s.busy = []) (running : s.panicked = none) {prog : Prog}
    (restores : Restores dots links prog) :
    (s.enter pid prog).Settled dots links := by
  refine ⟨by simp [running], Or.inr ⟨pid, prog, ?_, ?_, ?_, ?_⟩⟩
  · rw [enter_busy, quiet]
  · rw [enter_prog, Function.update_self]
  · intro p other
    rcases settled.calls with ⟨_, idle, _⟩ | ⟨q, _, busy, _⟩
    · rw [enter_prog, Function.update_of_ne other]
      exact idle p
    · rw [quiet] at busy
      cases busy
  · rcases settled.calls with ⟨_, _, inv⟩ | ⟨q, _, busy, _⟩
    · exact restores pid s.state inv
    · rw [quiet] at busy
      cases busy

theorem Settled.goto (settled : s.Settled dots links) {pid : Pid} {prog after : Prog}
    {state : State} {choice : Inum} (running : s.panicked = none)
    (entered : s.prog pid = some prog)
    (guard : Guard dots links pid s.state prog)
    (stepped : prog.step pid choice s.state = some (state, after)) :
    (s.goto pid state after).Settled dots links := by
  rcases settled.calls with ⟨_, idle, _⟩ | ⟨q, current, busy, at_, idle, wp⟩
  · rw [idle pid] at entered
    cases entered
  · obtain rfl : pid = q := by
      by_contra other
      rw [idle pid other] at entered
      cases entered
    rw [at_] at entered
    cases entered
    have next := wp_of_step wp guard stepped
    have progs : (s.goto pid state after).prog =
        Function.update s.prog pid (some after) := by
      cases after <;> rfl
    have states : (s.goto pid state after).state = state := by
      cases after <;> rfl
    have same : (s.goto pid state after).busy = s.busy := by
      cases after <;> rfl
    refine ⟨?_, Or.inr ⟨pid, after, by rw [same, busy], ?_, ?_, ?_⟩⟩
    · intro message panics dotted
      have last : after = .panic message := by
        cases after <;> simp [System.goto, running] at panics ⊢
        exact panics
      subst last
      exact allowed_of_panic next dotted
    · rw [progs, Function.update_self]
    · intro p other
      rw [progs, Function.update_of_ne other]
      exact idle p other
    · rw [states]
      exact next

theorem Settled.leave (settled : s.Settled dots links) {pid : Pid} {result : Int}
    (entered : s.prog pid = some (.done result)) :
    (s.leave pid).Settled dots links := by
  rcases settled.calls with ⟨_, idle, _⟩ | ⟨q, current, busy, at_, idle, wp⟩
  · rw [idle pid] at entered
    cases entered
  · obtain rfl : pid = q := by
      by_contra other
      rw [idle pid other] at entered
      cases entered
    rw [at_] at entered
    cases entered
    refine ⟨settled.panicked, Or.inl ⟨?_, ?_, post_of_done wp⟩⟩
    · rw [leave_busy, busy]
      simp
    · intro p
      rw [leave_prog]
      by_cases same : p = pid
      · subst same
        simp
      · rw [Function.update_of_ne same]
        exact idle p same

/-- One step, taken alone and under the conditions. -/
theorem Settled.step (settled : s.Settled dots links) {label : Label}
    (alone : s.OneAtATime label) (allowed : s.Allows dots links label)
    (stepped : s.step label = some s') : s'.Settled dots links := by
  unfold System.step at stepped
  split at stepped
  next running =>
      split at stepped
      next pid syscall =>
          split at stepped
          next =>
              cases stepped
              exact settled.enter alone running (restores_syscall syscall)
          next => cases stepped
      next pid choice =>
          split at stepped
          next result entered =>
              cases stepped
              exact settled.leave entered
          next prog _ entered =>
              split at stepped
              next state after moved =>
                  cases stepped
                  exact settled.goto running entered (allowed prog entered) moved
              next => cases stepped
          next => cases stepped
  next => cases stepped

end System

/-- A whole run, one call at a time and under the conditions. -/
theorem settled_of_run {start : State} (image : ConsistentImage start)
    {labels : List Label} {sys : System}
    (ran : LabelledRuns.run System.step (.quiet start) labels = some sys)
    (meets : LabelledRuns.RunMeets System.step
      (fun s label => s.OneAtATime label ∧ s.Allows dots links label)
      (.quiet start) labels) :
    sys.Settled dots links := by
  refine LabelledRuns.invariant_of_runMeets ?_ ?_ meets ran
  · exact fun settled guard stepped => settled.step guard.1 guard.2 stepped
  · refine ⟨nofun, Or.inl ⟨rfl, fun _ => rfl, ?_⟩⟩
    exact image.weaken (fun _ => trivial) fun _ => trivial

end Runs

/-! ## No dangling entries -/

/-- The inodes that paths from the root lead to, through any entry. -/
inductive Reachable (inode : Inum → Inode) : Inum → Prop
  | root : Reachable inode rootino
  | entry {h : Inum} {de : Dirent} : Reachable inode h → (inode h).type = .dir →
      de ∈ (inode h).dirents → de.inum ≠ 0 → Reachable inode de.inum

/-- Every entry of a directory that can be reached from the root, or is a
current directory or an open file, names an allocated inode. -/
def NoDangling (s : State) : Prop :=
  ∀ h, (s.inode h).type = .dir → Reachable s.inode h ∨ Held s h →
    ∀ de ∈ (s.inode h).dirents, de.inum ≠ 0 → (s.inode de.inum).type ≠ .free

/-- The step frees no inode that the ".." entry of another directory in use
names. -/
def System.FreesUnnamed (s : System) : Label → Prop
  | .call _ _ => True
  | .run pid _ => ∀ i next, s.prog pid = some (.free i next) →
      ∀ h, h ≠ i → Live s.state h → (s.state.inode h).type = .dir →
        ⟨i, ['.', '.']⟩ ∉ (s.state.inode h).dirents

theorem live_of_reachable {s : State} {i : Inum} (reachable : Reachable s.inode i) :
    Live s i := by
  induction reachable with
  | root => exact .root
  | entry _ isDir member used ih => exact .entry ih isDir member used

theorem System.FreesUnnamed.allows {s : System} {label : Label}
    (frees : s.FreesUnnamed label) : s.Allows True False label := by
  cases label with
  | call pid syscall => trivial
  | run pid choice =>
      intro prog entered
      cases prog with
      | free i next => exact fun _ => frees i next entered
      | ialloc type next => exact nofun
      | store i node next => exact nofun
      | _ => trivial

/-- Between calls no entry dangles, and no lookup has met a free inode. -/
theorem noDangling_of_freesUnnamed {start : State} (image : ConsistentImage start)
    {labels : List Label} {sys : System}
    (ran : LabelledRuns.run System.step (.quiet start) labels = some sys)
    (meets : LabelledRuns.RunMeets System.step
      (fun s label => s.OneAtATime label ∧ s.FreesUnnamed label)
      (.quiet start) labels) :
    sys.panicked ≠ some .noType ∧ (sys.busy = [] → NoDangling sys.state) := by
  have settled : sys.Settled True False := by
    refine settled_of_run image ran (meets.mono ?_)
    exact fun _ _ guard => ⟨guard.1, guard.2.allows⟩
  refine ⟨fun panics => settled.panicked _ panics trivial rfl, ?_⟩
  intro quiet h isDir inUse de member used
  rcases settled.calls with ⟨_, _, inv⟩ | ⟨pid, _, busy, _⟩
  · have live : Live sys.state h := by
      rcases inUse with reachable | held
      · exact live_of_reachable reachable
      · exact .held (inv.ref_pos_of_held held)
    exact inv.live trivial de.inum (.entry live isDir member used)
  · rw [quiet] at busy
    cases busy

/-! ## An image and two runs -/

/-- The file system after `mkfs`, without its programs; the root is the current
directory of process 0. -/
def freshRoot : State where
  inode i :=
    if i = 1 then ⟨.dir, 0, 0, 1, [⟨1, ['.']⟩, ⟨1, ['.', '.']⟩]⟩
    else ⟨.free, 0, 0, 0, []⟩
  ninodes := 200
  ref i := if i = 1 then 1 else 0
  valid i := i = 1
  lock _ := none
  cwd pid := if pid = 0 then some 1 else none
  ofile _ _ := none
  ftable _ := ⟨0, none⟩

theorem freshRoot_allocated {i : Inum}
    (allocated : (freshRoot.inode i).type ≠ .free) : i = 1 := by
  by_contra other
  simp [freshRoot, other] at allocated

theorem freshRoot_unnamed (h i : Inum) : ¬ (freshRoot.inode h).Names i := by
  rintro ⟨_, de, member, _, proper⟩
  by_cases root : h = 1
  · subst root
    simp only [freshRoot, if_true, List.mem_cons, List.not_mem_nil, or_false] at member
    rcases member with rfl | rfl
    · exact proper.1 rfl
    · exact proper.2 rfl
  · simp [freshRoot, root] at member

theorem freshRoot_consistent : ConsistentImage freshRoot := by
  have names : ∀ i, i ≠ 0 → names freshRoot.inode freshRoot.ninodes i = 0 := by
    intro i nonzero
    apply Finset.sum_eq_zero
    intro h _
    exact entries_eq_zero nonzero fun _ => freshRoot_unnamed h i
  refine ⟨⟨rfl, rfl, ?_, ?_, ?_, ?_, ?_, ?_, ?_⟩, ⟨{0}, ?_, ?_⟩, ?_, ?_, ?_, ?_⟩
  · intro i allocated
    cases freshRoot_allocated allocated
    decide
  · intro h isDir
    cases freshRoot_allocated (i := h) (by simp [isDir])
    exact ⟨1, [], rfl, by decide, by decide, by simp⟩
  · exact fun h i _ named => absurd named (freshRoot_unnamed h i)
  · intro i isDir
    cases freshRoot_allocated (i := i) (by simp [isDir])
    rw [names 1 (by decide)]
    exact Nat.zero_le 1
  · intro i allocated
    cases freshRoot_allocated allocated
    rw [names 1 (by decide)]
    decide
  · intro _ i notRoot allocated
    exact absurd (freshRoot_allocated allocated) notRoot
  · exact fun _ h i _ named => absurd named (freshRoot_unnamed h i)
  · intro pid absent
    have other : pid ≠ 0 := by simpa using absent
    simp [freshRoot, other]
  · intro i
    by_cases root : i = 1
    · subst root
      decide
    · simp [State.held, refers, freshRoot, root, Ne.symm root]
  · intro i valid _
    have root : i = 1 := by simpa [freshRoot] using valid
    simp [freshRoot, root]
  · intro _ i allocated unlinked
    cases freshRoot_allocated allocated
    cases unlinked
  · exact fun _ _ => rfl
  · intro _ i live
    have root : i = 1 := by
      induction live with
      | root => rfl
      | @held i positive =>
          by_contra other
          simp [freshRoot, other] at positive
      | entry _ _ member _ ih =>
          subst ih
          simp only [freshRoot, if_true, List.mem_cons, List.not_mem_nil, or_false]
            at member
          rcases member with rfl | rfl <;> rfl
    simp [freshRoot, root]

/-- The same as `userinit` leaves it: the inode of the root has not been read. -/
def bootRoot : State :=
  { freshRoot with valid := fun _ => false }

theorem bootRoot_consistent : ConsistentImage bootRoot := by
  refine freshRoot_consistent.unread fun i allocated => ?_
  cases freshRoot_allocated allocated
  decide

/-- Process 0 makes a call that takes so many steps. -/
def callOf (syscall : Syscall) (choice : Inum) (steps : Nat) : List Label :=
  Label.call 0 syscall :: List.replicate steps (Label.run 0 choice)

/-- A process enters a/b, removes it and removes its parent. -/
def removeParent : List Label :=
  callOf (.mkdir ['a']) 2 25 ++ callOf (.mkdir ['a', '/', 'b']) 3 33 ++
    callOf (.chdir ['a', '/', 'b']) 0 27 ++
    callOf (.unlink ['/', 'a', '/', 'b']) 0 31 ++ callOf (.unlink ['/', 'a']) 0 24

instance (s : System) (label : Label) : Decidable (s.OneAtATime label) :=
  match label with
  | .call _ _ => inferInstanceAs (Decidable (_ = _))
  | .run _ _ => inferInstanceAs (Decidable True)

/-- The ".." of the removed current directory names a free inode. -/
theorem removed_parent_dangles :
    ConsistentImage freshRoot ∧
      LabelledRuns.RunMeets System.step System.OneAtATime (.quiet freshRoot)
        removeParent ∧
      ∃ sys, LabelledRuns.run System.step (.quiet freshRoot) removeParent = some sys ∧
        sys.busy = [] ∧ ¬ NoDangling sys.state := by
  refine ⟨freshRoot_consistent, by decide +kernel, ?_⟩
  have ended : ((LabelledRuns.run System.step (.quiet freshRoot) removeParent).map
      fun sys => (sys.busy, sys.state.cwd 0, (sys.state.inode 3).type,
        (sys.state.inode 3).dirents, (sys.state.inode 2).type)) =
      some ([], some 3, .dir, [⟨3, ['.']⟩, ⟨2, ['.', '.']⟩], .free) := by
    decide +kernel
  obtain ⟨sys, ran, fields⟩ := Option.map_eq_some_iff.mp ended
  simp only [Prod.mk.injEq] at fields
  obtain ⟨quiet, cwd, isDir, dirents, free⟩ := fields
  refine ⟨sys, ran, quiet, fun fine => ?_⟩
  refine fine 3 isDir (Or.inr (Or.inl ⟨0, cwd⟩)) ⟨2, ['.', '.']⟩ ?_ (by decide) free
  rw [dirents]
  exact List.mem_cons_of_mem _ List.mem_cons_self

theorem bootRoot_bounded : bootRoot.Bounded := by
  intro i beyond
  have other : i ≠ 1 := Nat.ne_of_gt (Nat.lt_of_lt_of_le (by decide) beyond)
  simp [bootRoot, freshRoot, other]

/-- The call is not about to free an inode that the ".." entry of another
directory names. -/
def Prog.freesNoParent (s : State) : Prog → Bool
  | .free i _ => ∀ h < s.ninodes, h ≠ i → (s.inode h).type = .dir →
      ⟨i, ['.', '.']⟩ ∉ (s.inode h).dirents
  | _ => true

/-- The step frees no parent of another directory. -/
def System.FreesNoParent (s : System) : Label → Prop
  | .call _ _ => True
  | .run pid _ => ∀ prog ∈ s.prog pid, prog.freesNoParent s.state = true

instance (s : System) (label : Label) : Decidable (s.FreesNoParent label) :=
  match label with
  | .call _ _ => inferInstanceAs (Decidable True)
  | .run _ _ => inferInstanceAs (Decidable (∀ prog ∈ _, _))

theorem System.FreesNoParent.unnamed {s : System} {label : Label} (bounded : s.state.Bounded)
    (frees : s.FreesNoParent label) : s.FreesUnnamed label := by
  cases label with
  | call pid syscall => trivial
  | run pid choice =>
      intro i next entered h apart _ isDir
      refine of_decide_eq_true (frees _ entered) h ?_ apart isDir
      by_contra beyond
      have free := (bounded h (Nat.le_of_not_lt beyond)).1
      rw [isDir] at free
      cases free

/-- A process makes a directory with a device in it and removes both. -/
def makeAndUnlink : List Label :=
  callOf (.mkdir ['a']) 2 25 ++ callOf (.mknod ['a', '/', 'f'] 1 1) 3 30 ++
    callOf (.unlink ['a', '/', 'f']) 0 31 ++ callOf (.unlink ['a']) 0 24

theorem makeAndUnlink_noDangling :
    ∃ sys, LabelledRuns.run System.step (.quiet bootRoot) makeAndUnlink = some sys ∧
      sys.busy = [] ∧ (sys.state.inode 2).type = .free ∧ (sys.state.inode 3).type = .free ∧
      (sys.state.inode 1).dirents = [⟨1, ['.']⟩, ⟨1, ['.', '.']⟩, ⟨0, []⟩] ∧
      NoDangling sys.state := by
  have ended : ((LabelledRuns.run System.step (.quiet bootRoot) makeAndUnlink).map
      fun sys => (sys.busy, (sys.state.inode 2).type, (sys.state.inode 3).type,
        (sys.state.inode 1).dirents)) =
      some ([], .free, .free, [⟨1, ['.']⟩, ⟨1, ['.', '.']⟩, ⟨0, []⟩]) := by
    decide +kernel
  obtain ⟨sys, ran, fields⟩ := Option.map_eq_some_iff.mp ended
  simp only [Prod.mk.injEq] at fields
  obtain ⟨quiet, removed, unlinked, root⟩ := fields
  have checked : LabelledRuns.RunMeets System.step
      (fun s label => s.OneAtATime label ∧ s.OnDisk label ∧ s.FreesNoParent label)
      (.quiet bootRoot) makeAndUnlink := by
    decide +kernel
  have meets : LabelledRuns.RunMeets System.step
      (fun s label => s.OneAtATime label ∧ s.FreesUnnamed label)
      (.quiet bootRoot) makeAndUnlink := by
    have kept : ∀ {s : System} {label : Label} {next : System}, s.state.Bounded →
        s.OneAtATime label ∧ s.OnDisk label ∧ s.FreesNoParent label →
        System.step s label = some next → next.state.Bounded :=
      fun bounded guard stepped => System.bounded_step bounded guard.2.1 stepped
    refine checked.of_invariant kept (fun bounded guard => ?_) bootRoot_bounded
    exact ⟨guard.1, guard.2.2.unnamed bounded⟩
  have fine := noDangling_of_freesUnnamed bootRoot_consistent ran meets
  exact ⟨sys, ran, quiet, removed, unlinked, root, fine.2 quiet⟩

end Xv6.Fs
