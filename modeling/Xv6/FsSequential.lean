import Xv6.DirectoryTree

/-!
# Calls executed one at a time

With one call at a time the inodes can be described between the steps of the
call.  `Inv` is that description; it counts the references of the running call
and the link that the call has to spare.  `Wp` says that the rest of a call
restores the description when it returns.  Two conditions on the steps of a
call appear as propositions: under `dots` no inode is freed that the ".." of a
directory in use still names, and under `links` no entry is made in a directory
without links.
-/

namespace Xv6.Fs

/-- The inodes that lookups from the root, and from inodes in use, lead to. -/
inductive Live (s : State) : Inum → Prop
  | root : Live s rootino
  | held {i : Inum} : 0 < s.ref i → Live s i
  | entry {h : Inum} {de : Dirent} : Live s h → (s.inode h).type = .dir →
      de ∈ (s.inode h).dirents → de.inum ≠ 0 → Live s de.inum

/-- A current directory or an open file. -/
def Held (s : State) (i : Inum) : Prop :=
  (∃ pid, s.cwd pid = some i) ∨ ∃ f, (s.ftable f).ip = some i

/-- The file system in the middle of a call that has the references `mine`. -/
structure Inv (dots links : Prop) (s : State) (mine : List Inum)
    (extra : Option Inum) : Prop where
  tree : Tree links s.inode s.ninodes extra
  counted : ∃ pids : Finset Pid, (∀ pid, pid ∉ pids → s.cwd pid = none) ∧
    ∀ i, s.ref i = s.held pids i + mine.count i
  cached : s.CacheOk
  kept : links → ∀ i, (s.inode i).type ≠ .free → (s.inode i).nlink = 0 →
    0 < s.ref i ∧ s.valid i = true
  files : ∀ f, (s.ftable f).ref = 0 → (s.ftable f).ip = none
  live : dots → ∀ i, Live s i → (s.inode i).type ≠ .free

/-- The condition on a step of a call. -/
def Guard (dots links : Prop) (pid : Pid) (s : State) : Prog → Prop
  | .free i _ => dots → ∀ h, h ≠ i → Live s h → (s.inode h).type = .dir →
      ⟨i, ['.', '.']⟩ ∉ (s.inode h).dirents
  | .ialloc _ _ => links → ∀ h, s.lock h = some pid → 0 < (s.inode h).nlink
  | .store i node _ => links →
      (∃ de ∈ node.dirents, de.inum ≠ 0 ∧ de ∉ (s.inode i).dirents) →
      0 < (s.inode i).nlink
  | _ => True

/-- The call has steps to take. -/
def Prog.Active : Prog → Prop
  | .done _ => False
  | .panic _ => False
  | _ => True

/-- Where the rest of the call returns it does so in a state with `post`, if its
steps meet the conditions; under `dots` it does not panic for want of a
type. -/
inductive Wp (dots links : Prop) (pid : Pid) (post : State → Prop) :
    State → Prog → Prop
  | done {s : State} {result : Int} : post s → Wp dots links pid post s (.done result)
  | panic {s : State} {message : Panic} : (dots → message ≠ .noType) →
      Wp dots links pid post s (.panic message)
  | step {s : State} {prog : Prog} (active : prog.Active)
      (next : ∀ choice s' after, Guard dots links pid s prog →
        prog.step pid choice s = some (s', after) →
        Wp dots links pid post s' after) :
      Wp dots links pid post s prog

section Sequential

variable {dots links : Prop} {pid : Pid} {post : State → Prop}
  {s s' : State} {mine : List Inum} {extra : Option Inum} {i : Inum}

theorem Live.mono {s s' : State}
    (held : ∀ i, 0 < s'.ref i → Live s i)
    (entry : ∀ h de, Live s h → (s'.inode h).type = .dir →
      de ∈ (s'.inode h).dirents → de.inum ≠ 0 → Live s de.inum)
    {i : Inum} (live : Live s' i) : Live s i := by
  induction live with
  | root => exact .root
  | held positive => exact held _ positive
  | @entry h de _ isDir member used ih => exact entry h de ih isDir member used

theorem Live.of_same_inodes (s s' : State) (inode : s'.inode = s.inode)
    (held : ∀ i, 0 < s'.ref i → Live s i) {i : Inum} (live : Live s' i) :
    Live s i := by
  refine live.mono held ?_
  intro h de before isDir member used
  rw [inode] at isDir member
  exact .entry before isDir member used

theorem held_pos_of_held {pids : Finset Pid}
    (outside : ∀ pid, pid ∉ pids → s.cwd pid = none) (held : Held s i) :
    0 < s.held pids i := by
  rcases held with ⟨pid, current⟩ | ⟨f, target⟩
  · apply held_pos_of_cwd _ current
    by_contra absent
    simp [outside pid absent] at current
  · have one := Finset.single_le_sum (f := fun f => refers (s.ftable f).ip i)
      (fun _ _ => Nat.zero_le _) (Finset.mem_univ f)
    simp only [target, refers, if_true] at one
    simp only [State.held, refers]
    omega

theorem held_of_held_pos {pids : Finset Pid} (positive : 0 < s.held pids i) :
    Held s i := by
  have target : ∀ {o : Option Inum}, refers o i ≠ 0 → o = some i := by
    intro o nonzero
    by_contra other
    simp [refers, other] at nonzero
  by_cases current : ∑ pid ∈ pids, refers (s.cwd pid) i = 0
  · have file : ∑ f, refers (s.ftable f).ip i ≠ 0 := by
      rw [State.held] at positive
      omega
    obtain ⟨f, _, nonzero⟩ := Finset.exists_ne_zero_of_sum_ne_zero file
    exact Or.inr ⟨f, target nonzero⟩
  · obtain ⟨pid, _, nonzero⟩ := Finset.exists_ne_zero_of_sum_ne_zero current
    exact Or.inl ⟨pid, target nonzero⟩

namespace Inv

theorem ref_pos_of_mem (inv : Inv dots links s mine extra) (member : i ∈ mine) :
    0 < s.ref i := by
  obtain ⟨pids, _, counted⟩ := inv.counted
  have positive := List.count_pos_iff.mpr member
  have total := counted i
  omega

theorem ref_pos_of_held (inv : Inv dots links s mine extra) (held : Held s i) :
    0 < s.ref i := by
  obtain ⟨pids, outside, counted⟩ := inv.counted
  have positive := held_pos_of_held outside held
  have total := counted i
  omega

theorem perm (inv : Inv dots links s mine extra) {mine' : List Inum}
    (perm : mine.Perm mine') : Inv dots links s mine' extra := by
  obtain ⟨pids, outside, counted⟩ := inv.counted
  exact { inv with
    counted := ⟨pids, outside, fun j => by rw [counted, perm.count_eq]⟩ }

/-- Locks do not matter. -/
theorem setLock (inv : Inv dots links s mine extra) (j : Inum)
    (owner : Option Pid) : Inv dots links (s.setLock j owner) mine extra where
  tree := inv.tree
  counted := inv.counted
  cached := inv.cached
  kept := inv.kept
  files := inv.files
  live dotted k live := by
    have before : Live s k :=
      Live.of_same_inodes s (s.setLock j owner) rfl (fun _ positive => .held positive) live
    exact inv.live dotted k before

theorem setValid (inv : Inv dots links s mine extra) {j : Inum}
    (allocated : (s.inode j).type ≠ .free) :
    Inv dots links (s.setValid j true) mine extra where
  tree := inv.tree
  counted := inv.counted
  cached k valid positive := by
    by_cases same : k = j
    · subst same
      exact allocated
    · exact inv.cached k (by simpa [Function.update_of_ne same] using valid) positive
  kept exactly k nonfree unlinked := by
    refine ⟨(inv.kept exactly k nonfree unlinked).1, ?_⟩
    by_cases same : k = j
    · subst same
      simp
    · simpa [Function.update_of_ne same] using (inv.kept exactly k nonfree unlinked).2
  files := inv.files
  live dotted k live := by
    have before : Live s k :=
      Live.of_same_inodes s (s.setValid j true) rfl (fun _ positive => .held positive)
        live
    exact inv.live dotted k before

theorem iget (inv : Inv dots links s mine extra) (got : s.iget i = some s')
    (live : dots → Live s i) : Inv dots links s' (i :: mine) extra := by
  obtain ⟨inode, _, cwd, ftable, ninodes, _⟩ := iget_same got
  have valid : ∀ j, 0 < s.ref j → s'.valid j = s.valid j := by
    intro j positive
    unfold State.iget at got
    split at got
    · cases got
      rfl
    next unused =>
        split at got
        · cases got
        · cases got
          have distinct : j ≠ i := by
            rintro rfl
            exact unused positive
          simp [Function.update_of_ne distinct]
  have ref : ∀ j, s'.ref j = s.ref j + refers (some i) j := iget_ref got
  refine ⟨?_, ?_, inv.cached.iget got, ?_, ?_, ?_⟩
  · rw [inode, ninodes]
    exact inv.tree
  · obtain ⟨pids, outside, counted⟩ := inv.counted
    refine ⟨pids, by rwa [cwd], fun j => ?_⟩
    have total := counted j
    simp only [State.held, cwd, ftable] at total ⊢
    rw [ref, total, List.count_cons]
    simp only [refers, Option.some.injEq, beq_iff_eq]
    omega
  · intro exactly j nonfree unlinked
    rw [inode] at nonfree unlinked
    obtain ⟨positive, isValid⟩ := inv.kept exactly j nonfree unlinked
    rw [valid j positive, ref]
    exact ⟨by omega, isValid⟩
  · rw [ftable]
    exact inv.files
  · intro dotted j now
    rw [inode]
    apply inv.live dotted j
    refine Live.of_same_inodes s s' inode ?_ now
    intro k positive
    by_cases same : k = i
    · subst same
      exact live dotted
    · apply Live.held
      rw [ref] at positive
      simpa [refers, Ne.symm same] using positive

/-- A reference is given up that was not the last to an inode without links. -/
theorem unref (inv : Inv dots links s (i :: mine) extra)
    (linked : s.valid i = true → (s.inode i).nlink = 0 → s.ref i ≠ 1) :
    Inv dots links (s.setRef i (s.ref i - 1)) mine extra := by
  have positive : 0 < s.ref i := inv.ref_pos_of_mem List.mem_cons_self
  have fewer : ∀ j, 0 < (s.setRef i (s.ref i - 1)).ref j → 0 < s.ref j := by
    intro j left
    by_cases same : j = i
    · subst same
      exact positive
    · simpa [Function.update_of_ne same] using left
  refine ⟨inv.tree, ?_, ?_, ?_, inv.files, ?_⟩
  · obtain ⟨pids, outside, counted⟩ := inv.counted
    refine ⟨pids, outside, fun j => ?_⟩
    have total := counted j
    have same : (s.setRef i (s.ref i - 1)).held pids j = s.held pids j := rfl
    rw [List.count_cons] at total
    rw [State.setRef_ref, same]
    by_cases equal : j = i
    · subst equal
      simp only [beq_self_eq_true, if_true] at total
      rw [Function.update_self]
      omega
    · simp only [beq_iff_eq, Ne.symm equal, if_false] at total
      rw [Function.update_of_ne equal]
      omega
  · exact inv.cached.setRef fun _ => positive
  · intro exactly j nonfree unlinked
    obtain ⟨referenced, valid⟩ := inv.kept exactly j nonfree unlinked
    refine ⟨?_, valid⟩
    by_cases same : j = i
    · subst same
      have several := linked valid unlinked
      rw [State.setRef_ref, Function.update_self]
      omega
    · simpa [Function.update_of_ne same] using referenced
  · intro dotted j now
    have before : Live s j :=
      Live.of_same_inodes s (s.setRef i (s.ref i - 1)) rfl
        (fun k left => .held (fewer k left)) now
    exact inv.live dotted j before

/-- The last reference to an inode without links is given up. -/
theorem free (inv : Inv dots links s (i :: mine) extra)
    (valid : s.valid i = true) (unlinked : (s.inode i).nlink = 0)
    (last : s.ref i = 1)
    (unnamed : dots → ∀ h, h ≠ i → Live s h → (s.inode h).type = .dir →
      ⟨i, ['.', '.']⟩ ∉ (s.inode h).dirents) :
    Inv dots links ((s.freeInode i).setRef i 0) mine extra ∧ i ∉ mine := by
  have allocated := inv.cached i valid (by omega)
  have law := inv.tree.law i allocated
  obtain ⟨pids, outside, counted⟩ := inv.counted
  have alone : s.held pids i = 0 ∧ mine.count i = 0 := by
    have total := counted i
    rw [List.count_cons_self] at total
    omega
  have other : ∀ j, j ≠ i →
      ((s.freeInode i).setRef i 0).inode j = s.inode j ∧
        ((s.freeInode i).setRef i 0).valid j = s.valid j ∧
        ((s.freeInode i).setRef i 0).ref j = s.ref j := by
    intro j unlike
    simp [State.freeInode, Function.update_of_ne unlike]
  have freed : (((s.freeInode i).setRef i 0).inode i).type = .free ∧
      ((s.freeInode i).setRef i 0).valid i = false ∧
      ((s.freeInode i).setRef i 0).ref i = 0 := by
    simp [State.freeInode]
  have alive : ∀ j, (((s.freeInode i).setRef i 0).inode j).type ≠ .free →
      j ≠ i := by
    rintro j nonfree rfl
    exact nonfree freed.1
  refine ⟨⟨?_, ⟨pids, outside, ?_⟩, ?_, ?_, inv.files, ?_⟩,
    List.count_eq_zero.mp alone.2⟩
  · exact inv.tree.free unlinked allocated
  · intro j
    have total := counted j
    have same : ((s.freeInode i).setRef i 0).held pids j = s.held pids j := rfl
    rw [same]
    by_cases equal : j = i
    · subst equal
      rw [freed.2.2]
      omega
    · rw [(other j equal).2.2]
      rw [List.count_cons_of_ne (Ne.symm equal)] at total
      exact total
  · intro j isValid positive
    have unlike : j ≠ i := by
      rintro rfl
      simp [freed.2.1] at isValid
    rw [(other j unlike).1]
    rw [(other j unlike).2.1] at isValid
    rw [(other j unlike).2.2] at positive
    exact inv.cached j isValid positive
  · intro exactly j nonfree bare
    have unlike := alive j nonfree
    rw [(other j unlike).1] at nonfree bare
    rw [(other j unlike).2.1, (other j unlike).2.2]
    exact inv.kept exactly j nonfree bare
  · intro dotted j now
    have before : Live s j ∧ j ≠ i := by
      induction now with
      | root =>
          refine ⟨.root, ?_⟩
          rintro rfl
          simp only [refers, if_true] at law
          omega
      | @held j positive =>
          have unlike : j ≠ i := by
            rintro rfl
            rw [freed.2.2] at positive
            omega
          rw [(other j unlike).2.2] at positive
          exact ⟨.held positive, unlike⟩
      | @entry h de _ isDir member used ih =>
          obtain ⟨liveH, unlikeH⟩ := ih
          rw [(other h unlikeH).1] at isDir member
          refine ⟨.entry liveH isDir member used, ?_⟩
          intro target
          have positive : Proper de.name → 0 < names s.inode s.ninodes i := by
            intro proper
            exact inv.tree.names_pos isDir ⟨target ▸ used, de, member, target, proper⟩
          obtain ⟨parent, rest, dirents, _, _, propers⟩ := inv.tree.formed h isDir
          rw [dirents] at member
          rcases List.mem_cons.mp member with rfl | later
          · exact unlikeH target
          · rcases List.mem_cons.mp later with rfl | later
            · apply unnamed dotted h unlikeH liveH isDir
              rw [dirents, ← target]
              exact List.mem_cons_of_mem _ List.mem_cons_self
            · have some := positive (propers de later used)
              omega
    rw [(other j before.2).1]
    exact inv.live dotted j before.1

end Inv

/-! ## Steps of a call -/

/-- The inodes that the call refers to, and the current directories, stay as
they are. -/
structure Untouched (mine : List Inum) (s s' : State) : Prop where
  inode : ∀ j, j ∈ mine → s'.inode j = s.inode j
  valid : ∀ j, j ∈ mine → s.valid j = true → s'.valid j = true
  cwd : s'.cwd = s.cwd

theorem Untouched.trans {s'' : State} (first : Untouched mine s s')
    (second : Untouched mine s' s'') : Untouched mine s s'' where
  inode j member := (second.inode j member).trans (first.inode j member)
  valid j member valid := second.valid j member (first.valid j member valid)
  cwd := second.cwd.trans first.cwd

theorem Untouched.subset {more : List Inum} (untouched : Untouched more s s')
    (subset : mine ⊆ more) : Untouched mine s s' where
  inode j member := untouched.inode j (subset member)
  valid j member := untouched.valid j (subset member)
  cwd := untouched.cwd

theorem wp_release {next : Prog}
    (rest : Wp dots links pid post (s.setLock i none) next) :
    Wp dots links pid post s (.release i next) := by
  refine Wp.step trivial ?_
  intro choice s' after _ stepped
  cases stepped
  exact rest

theorem wp_iput {next : Prog} (inv : Inv dots links s (i :: mine) extra)
    (rest : ∀ s', Inv dots links s' mine extra → Untouched mine s s' →
      Wp dots links pid post s' next) :
    Wp dots links pid post s (iput i next) := by
  rw [iput]
  refine Wp.step trivial ?_
  intro choice s' after _ stepped
  simp only [Prog.step] at stepped
  split at stepped
  next unlocked =>
      cases stepped
      refine Wp.step trivial ?_
      intro choice s' after _ stepped
      simp only [Prog.step, Option.some.injEq, Prod.mk.injEq] at stepped
      obtain ⟨rfl, rfl⟩ := stepped
      split
      next last =>
          simp only [Bool.and_eq_true, beq_iff_eq] at last
          obtain ⟨⟨valid, unlinked⟩, one⟩ := last
          refine Wp.step trivial ?_
          intro choice s' after guard stepped
          cases stepped
          apply wp_release
          refine Wp.step trivial ?_
          intro choice s' after _ stepped
          cases stepped
          have gone := (inv.setLock i (some pid)).free valid unlinked one guard
          refine rest _ ?_ ?_
          · have state : (((s.setLock i (some pid)).freeInode i).setLock i none).setRef i
                ((((s.setLock i (some pid)).freeInode i).setLock i none).ref i - 1) =
                (((s.setLock i (some pid)).freeInode i).setRef i 0).setLock i none := by
              have zero :
                  (((s.setLock i (some pid)).freeInode i).setLock i none).ref i - 1 = 0 := by
                simp [State.freeInode] at one ⊢
                omega
              rw [zero]
              rfl
            rw [state]
            exact gone.1.setLock i none
          · have unlike : ∀ j, j ∈ mine → j ≠ i := by
              rintro j member rfl
              exact gone.2 member
            refine ⟨fun j member => ?_, fun j member valid => ?_, rfl⟩
            · simp [State.freeInode, Function.update_of_ne (unlike j member)]
            · simpa [State.freeInode, Function.update_of_ne (unlike j member)] using
                valid
      next notLast =>
          apply wp_release
          refine Wp.step trivial ?_
          intro choice s' after _ stepped
          cases stepped
          refine rest _ ?_ ⟨fun _ _ => rfl, fun _ _ => id, rfl⟩
          apply ((inv.setLock i (some pid)).setLock i none).unref
          intro valid unlinked one
          simp only [Bool.and_eq_true, beq_iff_eq, not_and] at notLast
          exact notLast ⟨valid, unlinked⟩ one
  next => cases stepped

theorem wp_iunlockput {next : Prog} (inv : Inv dots links s (i :: mine) extra)
    (rest : ∀ s', Inv dots links s' mine extra → Untouched mine s s' →
      Wp dots links pid post s' next) :
    Wp dots links pid post s (iunlockput i next) := by
  rw [iunlockput]
  apply wp_release
  apply wp_iput (inv.setLock i none)
  intro s' inv' after
  exact rest s' inv' ⟨after.inode, after.valid, after.cwd⟩

/-- The state after `ilock`. -/
structure Locks (pid : Pid) (i : Inum) (s s' : State) : Prop where
  inode : s'.inode = s.inode
  lock : s'.lock = Function.update s.lock i (some pid)
  unlocked : s.lock i = none
  cwd : s'.cwd = s.cwd
  valid : s'.valid i = true
  others : ∀ j, s.valid j = true → s'.valid j = true
  allocated : (s.inode i).type ≠ .free

theorem wp_ilock {next : Inode → Prog} (inv : Inv dots links s mine extra)
    (member : i ∈ mine)
    (rest : ∀ s', Inv dots links s' mine extra → Locks pid i s s' →
      Wp dots links pid post s' (next (s'.inode i))) :
    Wp dots links pid post s (ilock i next) := by
  have positive := inv.ref_pos_of_mem member
  rw [ilock]
  refine Wp.step trivial ?_
  intro choice s' after _ stepped
  simp only [Prog.step] at stepped
  split at stepped
  next unlocked =>
      cases stepped
      refine Wp.step trivial ?_
      intro choice s' after _ stepped
      have locked := inv.setLock i (some pid)
      simp only [Prog.step] at stepped
      split at stepped
      next valid =>
          cases stepped
          have allocated := inv.cached i valid positive
          exact rest _ locked
            ⟨rfl, rfl, unlocked, rfl, valid, fun _ before => before, allocated⟩
      next =>
          split at stepped
          next free =>
              cases stepped
              apply Wp.panic
              intro dotted
              exact absurd free (inv.live dotted i (.held positive))
          next allocated =>
              cases stepped
              refine rest _ (locked.setValid allocated)
                ⟨rfl, rfl, unlocked, rfl, by simp, ?_, allocated⟩
              intro j before
              by_cases same : j = i
              · subst same
                simp
              · simpa [Function.update_of_ne same] using before
  next => cases stepped

theorem wp_iget {next : Prog} (inv : Inv dots links s mine extra)
    (live : dots → Live s i)
    (rest : ∀ s', s.iget i = some s' → Inv dots links s' (i :: mine) extra →
      Wp dots links pid post s' next) :
    Wp dots links pid post s (.iget i next) := by
  refine Wp.step trivial ?_
  intro choice s' after _ stepped
  simp only [Prog.step] at stepped
  split at stepped
  next got =>
      cases stepped
      exact rest _ got (inv.iget got live)
  next =>
      cases stepped
      exact .panic fun _ => by simp

theorem Locks.untouched (locks : Locks pid i s s') (mine : List Inum) :
    Untouched mine s s' where
  inode j _ := by rw [locks.inode]
  valid j _ := locks.others j
  cwd := locks.cwd

theorem iget_untouched (got : s.iget i = some s')
    (inv : Inv dots links s mine extra) : Untouched mine s s' where
  inode j _ := by rw [(iget_same got).1]
  valid j member valid := by
    have positive := inv.ref_pos_of_mem member
    unfold State.iget at got
    split at got
    · cases got
      exact valid
    next unused =>
        split at got
        · cases got
        · cases got
          have distinct : j ≠ i := by
            rintro rfl
            exact unused positive
          simpa [Function.update_of_ne distinct] using valid
  cwd := (iget_same got).2.2.1

/-! ## Paths -/

theorem wp_namexFrom {parent : Bool} {next : Option (Inum × Name) → Prog}
    {start : State}
    (found : ∀ s' ip name, Inv dots links s' (ip :: mine) extra →
      Untouched mine start s' → Wp dots links pid post s' (next (some (ip, name))))
    (failed : ∀ s', Inv dots links s' mine extra → Untouched mine start s' →
      Wp dots links pid post s' (next none)) (names : List Name) :
    ∀ ip s, Inv dots links s (ip :: mine) extra → Untouched mine start s →
      Wp dots links pid post s (namexFrom parent next ip names) := by
  induction names with
  | nil =>
      intro ip s inv before
      rw [namexFrom]
      split
      · apply wp_iput inv
        intro s' inv' after
        exact failed s' inv' (before.trans after)
      · exact found s ip [] inv before
  | cons name rest ih =>
      intro ip s inv before
      rw [namexFrom]
      apply wp_ilock inv List.mem_cons_self
      intro s1 inv1 locks
      have before1 := before.trans (locks.untouched mine)
      have giveUp : Wp dots links pid post s1 (iunlockput ip (next none)) := by
        apply wp_iunlockput inv1
        intro s' inv' after
        exact failed s' inv' (before1.trans after)
      split
      · exact giveUp
      next isDir =>
          rw [not_not] at isDir
          split
          · apply wp_release
            exact found _ ip name (inv1.setLock ip none)
              ⟨before1.inode, before1.valid, before1.cwd⟩
          · split
            · exact giveUp
            next inum off looked =>
                obtain ⟨present, nonzero⟩ := dirlookup_eq_some looked
                apply wp_iget inv1
                · intro _
                  have liveIp : Live s1 ip :=
                    .held (inv1.ref_pos_of_mem List.mem_cons_self)
                  exact .entry liveIp isDir (List.mem_of_getElem? present) nonzero
                · intro s2 got inv2
                  have after2 := iget_untouched got inv1
                  apply wp_iunlockput (inv2.perm (List.Perm.swap _ _ _))
                  intro s3 inv3 after3
                  apply ih inum s3 inv3
                  refine before1.trans (Untouched.trans ?_
                    (after3.subset (List.subset_cons_self _ _)))
                  exact after2.subset (List.subset_cons_self _ _)

theorem wp_namex {parent : Bool} {path : List Char}
    {next : Option (Inum × Name) → Prog} (inv : Inv dots links s mine extra)
    (found : ∀ s' ip name, Inv dots links s' (ip :: mine) extra →
      Untouched mine s s' → Wp dots links pid post s' (next (some (ip, name))))
    (failed : ∀ s', Inv dots links s' mine extra → Untouched mine s s' →
      Wp dots links pid post s' (next none)) :
    Wp dots links pid post s (namex parent path next) := by
  rw [namex]
  split
  · apply wp_iget inv fun _ => .root
    intro s' got inv'
    exact wp_namexFrom found failed _ _ s' inv' (iget_untouched got inv)
  · refine Wp.step trivial ?_
    intro choice s' after _ stepped
    simp only [Prog.step] at stepped
    split at stepped
    next ip current =>
        cases stepped
        have positive := inv.ref_pos_of_held (Or.inl ⟨pid, current⟩)
        have got : s.iget ip = some (s.setRef ip (s.ref ip + 1)) := by
          rw [State.iget, if_pos positive]
        have inv' := inv.iget got fun _ => .held positive
        exact wp_namexFrom found failed _ _ _ inv' (iget_untouched got inv)
    next => cases stepped

theorem wp_namei {path : List Char} {next : Option Inum → Prog}
    (inv : Inv dots links s mine extra)
    (found : ∀ s' ip, Inv dots links s' (ip :: mine) extra →
      Untouched mine s s' → Wp dots links pid post s' (next (some ip)))
    (failed : ∀ s', Inv dots links s' mine extra → Untouched mine s s' →
      Wp dots links pid post s' (next none)) :
    Wp dots links pid post s (namei path next) :=
  wp_namex inv (fun s' ip _ => found s' ip) failed

end Sequential

end Xv6.Fs
