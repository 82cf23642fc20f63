import Xv6.DanglingEntries

/-!
# Link counts

The link count of an inode is the number of entries, "." apart, that name it in
directories reachable from the root, as long as no entry is made in a directory
that has been removed.  Such a directory lives on as a current directory or an
open file; an entry made in it counts as a link although no path leads there.
-/

namespace Xv6.Fs

/-- The entries of a directory, "." apart, that name an inode. -/
def Inode.linksTo (node : Inode) (i : Inum) : Nat :=
  if node.type = .dir then
    node.dirents.countP fun de => de.inum = i ∧ de.name ≠ ['.']
  else 0

open Classical in
/-- The entries, "." apart, that name an inode in directories reachable from
the root. -/
noncomputable def linkCount (s : State) (i : Inum) : Nat :=
  ∑ h ∈ Finset.range s.ninodes,
    if Reachable s.inode h then (s.inode h).linksTo i else 0

/-- The link counts are right, linked inodes can be reached, and unlinked ones
are held. -/
structure LinksOk (s : State) : Prop where
  counts : ∀ i, i ≠ rootino → (s.inode i).type ≠ .free →
    (s.inode i).nlink = linkCount s i
  reachable : ∀ i, (s.inode i).type ≠ .free → 0 < (s.inode i).nlink →
    Reachable s.inode i
  freed : ∀ i, (s.inode i).type ≠ .free → (s.inode i).nlink = 0 → Held s i

/-- `create` allocates an inode, and `dirlink` makes an entry, only with a
parent directory that has links. -/
def System.EntersLinked (s : System) : Label → Prop
  | .call _ _ => True
  | .run pid _ =>
      (∀ type next, s.prog pid = some (.ialloc type next) →
        ∀ h, s.state.lock h = some pid → 0 < (s.state.inode h).nlink) ∧
      ∀ i node next, s.prog pid = some (.store i node next) →
        (∃ de ∈ node.dirents, de.inum ≠ 0 ∧ de ∉ (s.state.inode i).dirents) →
          0 < (s.state.inode i).nlink

theorem System.EntersLinked.allows {s : System} {label : Label}
    (enters : s.EntersLinked label) : s.Allows False True label := by
  cases label with
  | call pid syscall => trivial
  | run pid choice =>
      intro prog entered
      cases prog with
      | free i next => exact nofun
      | ialloc type next => exact fun _ => enters.1 type next entered
      | store i node next => exact fun _ => enters.2 i node next entered
      | _ => trivial

section Counts

variable {dots : Prop} {s : State} {mine : List Inum} {extra : Option Inum}

/-- The entries of a directory are those other than "." and "..", and "..". -/
theorem linksTo_eq {node : Inode} {h i : Inum} (isDir : node.type = .dir)
    (formed : node.Formed h) (nonzero : i ≠ 0) :
    node.linksTo i = node.entries i + refers node.parent i := by
  obtain ⟨parent, rest, dirents, _, _, propers⟩ := formed
  have same : rest.countP (fun de => decide (de.inum = i ∧ de.name ≠ ['.'])) =
      rest.countP fun de => decide (de.inum = i ∧ Proper de.name) := by
    apply List.countP_congr
    intro de member
    simp only [decide_eq_true_eq]
    constructor
    · rintro ⟨rfl, _⟩
      exact ⟨rfl, propers de member nonzero⟩
    · rintro ⟨rfl, proper⟩
      exact ⟨rfl, proper.1⟩
  simp only [Inode.linksTo, Inode.entries, isDir, if_true, dirents,
    List.countP_cons, same, Inode.parent, refers]
  simp [Proper]

theorem reachable_of_reached {inode : Inum → Inode} {i : Inum}
    (reached : Reached inode i) : Reachable inode i := by
  induction reached with
  | root => exact .root
  | entry _ isDir named ih =>
      obtain ⟨nonzero, de, member, rfl, _⟩ := named
      exact .entry ih isDir member nonzero

/-- What can be reached through any entry is the root or is named. -/
theorem reached_of_reachable {inode : Inum → Inode} {n : Nat}
    (tree : Tree True inode n extra) {i : Inum} (reachable : Reachable inode i) :
    Reached inode i := by
  induction reachable with
  | root => exact .root
  | @entry h de _ isDir member used ih =>
      obtain ⟨parent, rest, dirents, _, _, propers⟩ := tree.formed h isDir
      have split := member
      rw [dirents] at split
      rcases List.mem_cons.mp split with rfl | later
      · exact ih
      · rcases List.mem_cons.mp later with rfl | later
        · rcases Tree.named_of_reached ih with rfl | ⟨above, aboveDir, named⟩
          · have same := tree.rootParent
            rw [Inode.parent, dirents] at same
            have equal : parent = rootino := by simpa using same
            subst equal
            exact .root
          · have same := (tree.target above h aboveDir named).2.2 isDir
            rw [Inode.parent, dirents] at same
            have equal : parent = above := by simpa using same
            subst equal
            exact tree.rooted trivial parent h aboveDir named
        · exact .entry ih isDir ⟨used, de, member, rfl, propers de later used⟩

/-- Counting the entries that name directories, by the directory they name. -/
theorem sum_countP_dirs (inode : Inum → Inode) {n : Nat}
    (numbered : ∀ i, (inode i).type = .dir → i ≠ 0 ∧ i < n) (dirents : List Dirent) :
    ∑ h ∈ Finset.range n,
        (if (inode h).type = .dir then
          dirents.countP fun de => decide (de.inum = h ∧ Proper de.name)
        else 0) =
      dirents.countP fun de =>
        decide (de.inum ≠ 0 ∧ Proper de.name ∧ (inode de.inum).type = .dir) := by
  induction dirents with
  | nil => simp
  | cons de rest ih =>
      rw [List.countP_cons, ← ih]
      have here : ∑ h ∈ Finset.range n,
          (if (inode h).type = .dir ∧ de.inum = h ∧ Proper de.name then 1 else 0) =
          if de.inum ≠ 0 ∧ Proper de.name ∧ (inode de.inum).type = .dir then 1
          else 0 := by
        by_cases counted : Proper de.name ∧ (inode de.inum).type = .dir
        · have inside := numbered de.inum counted.2
          rw [if_pos ⟨inside.1, counted⟩,
            Finset.sum_eq_single_of_mem de.inum (Finset.mem_range.mpr inside.2)]
          · simp [counted.1, counted.2]
          · intro h _ other
            simp [Ne.symm other]
        · rw [if_neg fun all => counted all.2]
          apply Finset.sum_eq_zero
          intro h _
          rw [if_neg]
          rintro ⟨isDir, rfl, proper⟩
          exact counted ⟨proper, isDir⟩
      simp only [decide_eq_true_eq]
      rw [← here, ← Finset.sum_add_distrib]
      apply Finset.sum_congr rfl
      intro h _
      by_cases isDir : (inode h).type = .dir
      · simp [isDir, List.countP_cons]
      · simp [isDir]

open Classical in
/-- The subdirectories of a directory are the reachable directories whose ".."
names it. -/
theorem sum_parents_eq_kids {inode : Inum → Inode} {n : Nat}
    (tree : Tree True inode n none) {i : Inum} (notRoot : i ≠ rootino)
    (allocated : (inode i).type ≠ .free) :
    ∑ h ∈ Finset.range n,
        (if Reachable inode h ∧ (inode h).type = .dir then
          refers (inode h).parent i
        else 0) = kids inode i := by
  have inside := tree.numbered i allocated
  have each : ∀ h, (if Reachable inode h ∧ (inode h).type = .dir then
      refers (inode h).parent i else 0) =
      if (inode h).type = .dir then (inode i).entries h else 0 := by
    intro h
    by_cases dirH : (inode h).type = .dir
    · have nonzero := (tree.nonzero_of_dir dirH).1
      have named : 0 < (inode i).entries h ↔
          (inode i).type = .dir ∧ (inode i).Names h := entries_pos_iff nonzero
      by_cases reachable : Reachable inode h
      · rw [if_pos ⟨reachable, dirH⟩, if_pos dirH]
        by_cases parent : (inode h).parent = some i
        · have most := entries_le_names inode inside.2 h
          have single := tree.single h dirH
          have least : 0 < (inode i).entries h := by
            rcases Tree.named_of_reached (reached_of_reachable tree reachable) with
              rfl | ⟨above, aboveDir, entry⟩
            · rw [tree.rootParent] at parent
              exact absurd (Option.some.inj parent).symm notRoot
            · have same := (tree.target above h aboveDir entry).2.2 dirH
              rw [parent] at same
              cases same
              exact named.mpr ⟨aboveDir, entry⟩
          simp only [refers, parent, if_true]
          omega
        · have none : (inode i).entries h = 0 := by
            by_contra some
            obtain ⟨dirI, entry⟩ := named.mp (Nat.pos_of_ne_zero some)
            exact parent ((tree.target i h dirI entry).2.2 dirH)
          rw [none]
          simp [refers, parent]
      · have none : (inode i).entries h = 0 := by
          by_contra some
          obtain ⟨dirI, entry⟩ := named.mp (Nat.pos_of_ne_zero some)
          exact reachable (reachable_of_reached
            (.entry (tree.rooted trivial i h dirI entry) dirI entry))
        rw [if_neg fun both => reachable both.1, if_pos dirH, none]
    · simp [dirH]
  rw [Finset.sum_congr rfl fun h _ => each h]
  by_cases dirI : (inode i).type = .dir
  · simp only [Inode.entries, kids, dirI, if_true]
    exact sum_countP_dirs inode (fun j dirJ => tree.nonzero_of_dir dirJ) _
  · simp [Inode.entries, kids, dirI]

/-- With exact counts, the link count is the number of entries. -/
theorem linkCount_eq (inv : Inv dots True s mine none) {i : Inum}
    (notRoot : i ≠ rootino) (allocated : (s.inode i).type ≠ .free) :
    linkCount s i = (s.inode i).nlink := by
  have tree := inv.tree
  have nonzero : i ≠ 0 := Nat.ne_of_gt (tree.numbered i allocated).1
  rw [← tree.exact trivial i notRoot allocated,
    ← sum_parents_eq_kids tree notRoot allocated]
  have noExtra : refers none i = 0 := rfl
  rw [noExtra, Nat.add_zero, names, ← Finset.sum_add_distrib, linkCount]
  apply Finset.sum_congr rfl
  intro h _
  by_cases dirH : (s.inode h).type = .dir
  · by_cases reachable : Reachable s.inode h
    · rw [if_pos reachable, if_pos ⟨reachable, dirH⟩]
      exact linksTo_eq dirH (tree.formed h dirH) nonzero
    · have none : (s.inode h).entries i = 0 := by
        apply entries_eq_zero nonzero
        intro _ entry
        exact reachable (reachable_of_reached (tree.rooted trivial h i dirH entry))
      rw [if_neg reachable, if_neg fun both => reachable both.1, none]
  · simp [Inode.linksTo, Inode.entries, dirH]

theorem linksOk_of_inv (inv : Inv dots True s [] none) : LinksOk s where
  counts i notRoot allocated := (linkCount_eq inv notRoot allocated).symm
  reachable i allocated linked := by
    have tree := inv.tree
    by_cases root : i = rootino
    · subst root
      exact .root
    · have count := tree.exact trivial i root allocated
      have noExtra : refers none i = 0 := rfl
      by_cases named : 0 < names s.inode s.ninodes i
      · obtain ⟨h, _, isDir, entry⟩ := exists_of_names_pos
          (Nat.ne_of_gt (tree.numbered i allocated).1) named
        exact reachable_of_reached
          (.entry (tree.rooted trivial h i isDir entry) isDir entry)
      · have some : 0 < kids s.inode i := by omega
        have isDir : (s.inode i).type = .dir := by
          by_contra notDir
          simp [kids, notDir] at some
        exact reachable_of_reached
          (tree.reached_of_nlink trivial isDir linked (by simp))
  freed i allocated unlinked := by
    obtain ⟨pids, _, counted⟩ := inv.counted
    have positive := (inv.kept trivial i allocated unlinked).1
    have total := counted i
    rw [List.count_nil] at total
    have held : 0 < s.held pids i := by omega
    exact held_of_held_pos held

end Counts

/-- Between calls the link counts are right, as long as entries are made only in
directories with links. -/
theorem linksOk_of_entersLinked {start : State} (image : ConsistentImage start)
    {labels : List Label} {sys : System}
    (ran : LabelledRuns.run System.step (.quiet start) labels = some sys)
    (meets : LabelledRuns.RunMeets System.step
      (fun s label => s.OneAtATime label ∧ s.EntersLinked label)
      (.quiet start) labels)
    (quiet : sys.busy = []) : LinksOk sys.state := by
  have settled : sys.Settled False True := by
    refine settled_of_run image ran (meets.mono ?_)
    exact fun _ _ guard => ⟨guard.1, guard.2.allows⟩
  rcases settled.calls with ⟨_, _, inv⟩ | ⟨pid, _, busy, _⟩
  · exact linksOk_of_inv inv
  · rw [quiet] at busy
    cases busy

/-! ## Two runs -/

/-- A process makes a device in its removed current directory. -/
def createInRemoved : List Label :=
  callOf (.mkdir ['a']) 2 25 ++ callOf (.chdir ['a']) 0 19 ++
    callOf (.unlink ['/', 'a']) 0 23 ++ callOf (.mknod ['f'] 1 1) 3 22

theorem root_of_reachable {inode : Inum → Inode}
    (dirents : (inode 1).dirents = [⟨1, ['.']⟩, ⟨1, ['.', '.']⟩, ⟨0, []⟩])
    {i : Inum} (reachable : Reachable inode i) : i = 1 := by
  induction reachable with
  | root => rfl
  | entry _ _ member used ih =>
      subst ih
      rw [dirents] at member
      simp only [List.mem_cons, List.not_mem_nil, or_false] at member
      rcases member with rfl | rfl | rfl
      · rfl
      · rfl
      · exact absurd rfl used

/-- The device has a link, and no path leads to it. -/
theorem created_in_removed_unreachable :
    ConsistentImage freshRoot ∧
      LabelledRuns.RunMeets System.step System.OneAtATime (.quiet freshRoot)
        createInRemoved ∧
      ∃ sys, LabelledRuns.run System.step (.quiet freshRoot) createInRemoved =
          some sys ∧
        sys.busy = [] ∧ ¬ LinksOk sys.state := by
  refine ⟨freshRoot_consistent, by decide +kernel, ?_⟩
  have ended : ((LabelledRuns.run System.step (.quiet freshRoot) createInRemoved).map
      fun sys => (sys.busy, (sys.state.inode 3).type, (sys.state.inode 3).nlink,
        (sys.state.inode 1).dirents)) =
      some ([], .dev, 1, [⟨1, ['.']⟩, ⟨1, ['.', '.']⟩, ⟨0, []⟩]) := by
    decide +kernel
  obtain ⟨sys, ran, fields⟩ := Option.map_eq_some_iff.mp ended
  simp only [Prod.mk.injEq] at fields
  obtain ⟨quiet, type, nlink, dirents⟩ := fields
  refine ⟨sys, ran, quiet, fun fine => ?_⟩
  have reachable := fine.reachable 3 (by simp [type]) (by simp [nlink])
  exact absurd (root_of_reachable dirents reachable) (by decide)

/-- The call is not about to allocate an inode or to make an entry in a directory
without links. -/
def Prog.entersLinked (pid : Pid) (s : State) : Prog → Bool
  | .ialloc _ _ => ∀ h < s.ninodes, s.lock h = some pid → 0 < (s.inode h).nlink
  | .store i node _ =>
      (∃ de ∈ node.dirents, de.inum ≠ 0 ∧ de ∉ (s.inode i).dirents) → 0 < (s.inode i).nlink
  | _ => true

/-- The step makes entries in directories with links only. -/
def System.EntersLinks (s : System) : Label → Prop
  | .call _ _ => True
  | .run pid _ => ∀ prog ∈ s.prog pid, prog.entersLinked pid s.state = true

instance (s : System) (label : Label) : Decidable (s.EntersLinks label) :=
  match label with
  | .call _ _ => inferInstanceAs (Decidable True)
  | .run _ _ => inferInstanceAs (Decidable (∀ prog ∈ _, _))

theorem System.EntersLinks.linked {s : System} {label : Label} (bounded : s.state.Bounded)
    (enters : s.EntersLinks label) : s.EntersLinked label := by
  cases label with
  | call pid syscall => trivial
  | run pid choice =>
      refine ⟨fun type next entered h owned => ?_, fun i node next entered => ?_⟩
      · refine of_decide_eq_true (enters _ entered) h ?_ owned
        by_contra beyond
        have unlocked := (bounded h (Nat.le_of_not_lt beyond)).2
        rw [owned] at unlocked
        cases unlocked
      · exact of_decide_eq_true (enters _ entered)

/-- A process makes a device in a new directory, links it into the root and
removes the first name. -/
def moveDevice : List Label :=
  callOf (.mkdir ['a']) 2 25 ++ callOf (.mknod ['a', '/', 'f'] 1 1) 3 30 ++
    callOf (.link ['a', '/', 'f'] ['g']) 0 38 ++ callOf (.unlink ['a', '/', 'f']) 0 30

theorem moveDevice_linksOk :
    ∃ sys, LabelledRuns.run System.step (.quiet bootRoot) moveDevice = some sys ∧
      sys.busy = [] ∧ (sys.state.inode 2).nlink = 1 ∧ (sys.state.inode 3).nlink = 1 ∧
      LinksOk sys.state := by
  have ended : ((LabelledRuns.run System.step (.quiet bootRoot) moveDevice).map
      fun sys => (sys.busy, (sys.state.inode 2).nlink, (sys.state.inode 3).nlink)) =
      some ([], 1, 1) := by
    decide +kernel
  obtain ⟨sys, ran, fields⟩ := Option.map_eq_some_iff.mp ended
  simp only [Prod.mk.injEq] at fields
  obtain ⟨quiet, directory, device⟩ := fields
  have checked : LabelledRuns.RunMeets System.step
      (fun s label => s.OneAtATime label ∧ s.OnDisk label ∧ s.EntersLinks label)
      (.quiet bootRoot) moveDevice := by
    decide +kernel
  have meets : LabelledRuns.RunMeets System.step
      (fun s label => s.OneAtATime label ∧ s.EntersLinked label)
      (.quiet bootRoot) moveDevice := by
    have kept : ∀ {s : System} {label : Label} {next : System}, s.state.Bounded →
        s.OneAtATime label ∧ s.OnDisk label ∧ s.EntersLinks label →
        System.step s label = some next → next.state.Bounded :=
      fun bounded guard stepped => System.bounded_step bounded guard.2.1 stepped
    refine checked.of_invariant kept (fun bounded guard => ?_) bootRoot_bounded
    exact ⟨guard.1, guard.2.2.linked bounded⟩
  have fine := linksOk_of_entersLinked bootRoot_consistent ran meets quiet
  exact ⟨sys, ran, quiet, directory, device, fine⟩

end Xv6.Fs
