import Xv6.FsSequential

/-!
# What each call does to the directory tree

Each system call, executed alone, restores the description of the file system
that it found, whether it succeeds or fails.
-/

namespace Xv6.Fs

section Calls

variable {dots links : Prop} {pid : Pid} {s s' : State} {mine : List Inum}
  {extra extra' : Option Inum} {i : Inum}

/-- An allocated inode changes and keeps its type. -/
theorem Inv.setInode (inv : Inv dots links s mine extra) {node : Inode}
    (tree : Tree links (Function.update s.inode i node) s.ninodes extra')
    (type : node.type = (s.inode i).type) (member : i ∈ mine)
    (valid : s.valid i = true)
    (entries : dots → ∀ de ∈ node.dirents, de.inum ≠ 0 →
      de ∈ (s.inode i).dirents ∨ Live s de.inum) :
    Inv dots links (s.setInode i node) mine extra' := by
  have types := Tree.types_update s.inode i node type
  refine ⟨tree, inv.counted, ?_, ?_, inv.files, ?_⟩
  · intro j isValid positive
    have before := inv.cached j isValid positive
    rwa [State.setInode_inode, types]
  · intro exactly j nonfree unlinked
    rw [State.setInode_inode] at nonfree unlinked
    by_cases same : j = i
    · subst same
      exact ⟨inv.ref_pos_of_mem member, valid⟩
    · rw [Function.update_of_ne same] at nonfree unlinked
      exact inv.kept exactly j nonfree unlinked
  · intro dotted j now
    rw [State.setInode_inode, types]
    apply inv.live dotted j
    have held : ∀ k, 0 < (s.setInode i node).ref k → Live s k :=
      fun k positive => .held positive
    refine Live.mono held ?_ now
    intro h de before isDir present used
    rw [State.setInode_inode] at isDir present
    by_cases same : h = i
    · subst same
      rw [Function.update_self] at isDir present
      rcases entries dotted de present used with old | live
      · exact .entry before (type ▸ isDir) old used
      · exact live
    · rw [Function.update_of_ne same] at isDir present
      exact .entry before isDir present used

/-- The link count of an inode in use changes by the link to spare. -/
theorem Inv.relink (inv : Inv dots links s mine extra) {node : Inode} {nlink : Nat}
    (contents : s.inode i = node) (member : i ∈ mine) (valid : s.valid i = true)
    (moved : nlink + refers extra i = node.nlink + refers extra' i)
    (others : ∀ j, j ≠ i → refers extra' j = refers extra j) :
    Inv dots links (s.setInode i { node with nlink := nlink }) mine extra' := by
  subst contents
  exact inv.setInode (inv.tree.relink moved others) rfl member valid
    fun _ de present _ => Or.inl present

/-- An inode in use gets a link to spare. -/
theorem Inv.earn (inv : Inv dots links s mine none) {node : Inode}
    (contents : s.inode i = node) (member : i ∈ mine) (valid : s.valid i = true) :
    Inv dots links (s.setInode i { node with nlink := node.nlink + 1 }) mine
      (some i) := by
  apply inv.relink contents member valid
  · simp [refers]
  · intro j unlike
    simp [refers, unlike.symm]

/-- An inode in use loses the link it has to spare. -/
theorem Inv.spend (inv : Inv dots links s mine (some i)) {node : Inode}
    (contents : s.inode i = node) (allocated : node.type ≠ .free)
    (member : i ∈ mine) (valid : s.valid i = true) :
    Inv dots links (s.setInode i { node with nlink := node.nlink - 1 }) mine
      none := by
  have law := inv.tree.law i (by rwa [contents])
  rw [contents] at law
  apply inv.relink contents member valid
  · simp only [refers, if_true, reduceCtorEq, if_false] at law ⊢
    omega
  · intro j unlike
    simp [refers, unlike.symm]

theorem wp_store {post : State → Prop} {node : Inode} {next : Prog}
    (rest : Guard dots links pid s (.store i node next) →
      Wp dots links pid post (s.setInode i node) next) :
    Wp dots links pid post s (.store i node next) := by
  refine Wp.step trivial ?_
  intro choice s' after guard stepped
  cases stepped
  exact rest guard

/-- A call on a file system at rest leaves it at rest. -/
def Restores (dots links : Prop) (prog : Prog) : Prop :=
  ∀ pid s, Inv dots links s [] none →
    Wp dots links pid (fun s => Inv dots links s [] none) s prog

/-! ## `link` -/

theorem wp_linkBad (inv : Inv dots links s [i] (some i)) :
    Wp dots links pid (fun s => Inv dots links s [] none) s (linkBad i) := by
  rw [linkBad]
  apply wp_ilock inv List.mem_cons_self
  intro s1 inv1 locks
  apply wp_store
  intro _
  have allocated : (s1.inode i).type ≠ .free := by
    rw [locks.inode]
    exact locks.allocated
  apply wp_iunlockput (inv1.spend rfl allocated List.mem_cons_self locks.valid)
  intro s' inv' _
  exact .done inv'

/-- `dirlink` of an inode with a link to spare that is not a directory. -/
theorem wp_dirlink {post : State → Prop} {dp ip : Inum} {name : Name}
    {next : Option Inode → Prog} (inv : Inv dots links s mine (some ip))
    (locked : dp ∈ mine) (valid : s.valid dp = true)
    (member : ip ∈ mine) (allocated : (s.inode ip).type ≠ .free)
    (notDir : (s.inode ip).type ≠ .dir)
    (present : ∀ s', Inv dots links s' mine (some ip) → Untouched mine s s' →
      Wp dots links pid post s' (next none))
    (absent : ∀ s' node, Inv dots links s' mine none →
      Wp dots links pid post s' (next (some node))) :
    Wp dots links pid post s (dirlink dp (s.inode dp) name ip next) := by
  rw [dirlink]
  split
  · exact .panic fun _ => by simp
  next isDir =>
      rw [not_not] at isDir
      have liveDp : Live s dp := .held (inv.ref_pos_of_mem locked)
      have liveIp : Live s ip := .held (inv.ref_pos_of_mem member)
      split
      next other off looked =>
          obtain ⟨entry, nonzero⟩ := dirlookup_eq_some looked
          apply wp_iget inv
          · exact fun _ => .entry liveDp isDir (List.mem_of_getElem? entry) nonzero
          · intro s1 got inv1
            apply wp_iput inv1
            intro s2 inv2 after
            exact present s2 inv2 ((iget_untouched got inv).trans after)
      next unused =>
          dsimp only
          split
          · exact .panic fun _ => by simp
          · apply wp_store
            intro guard
            have notRoot : ip ≠ rootino := by
              rintro rfl
              exact notDir inv.tree.rootDir
            have nonzero : ip ≠ 0 :=
              Nat.ne_of_gt (inv.tree.numbered ip allocated).1
            have fresh : (⟨ip, name⟩ : Dirent) ∉ (s.inode dp).dirents := by
              intro old
              exact dirlookup_eq_none unused _ old nonzero rfl
            have reached : links → Reached s.inode dp := by
              intro exactly
              apply inv.tree.reached_of_nlink exactly isDir
              · exact guard exactly
                  ⟨⟨ip, name⟩, mem_insertDirent_self _ _, nonzero, fresh⟩
              · rintro ⟨⟩
                exact notDir isDir
            have tree := inv.tree.insert isDir unused allocated notRoot
              (fun dir => absurd dir notDir) reached
            have plain : (s.inode dp).insert ⟨ip, name⟩ (s.inode ip).dotdots =
                { s.inode dp with
                  dirents := insertDirent ⟨ip, name⟩ (s.inode dp).dirents } := by
              simp [Inode.insert, Inode.dotdots, notDir]
            rw [plain] at tree
            apply absent
            apply inv.setInode tree rfl locked valid
            intro _ de inserted used
            rcases mem_insertDirent inserted with rfl | old
            · exact Or.inr liveIp
            · exact Or.inl old

theorem restores_sysLink (old new : List Char) :
    Restores dots links (sysLink old new) := by
  intro pid s inv
  rw [sysLink]
  apply wp_namei inv
  · intro s1 ip inv1 _
    apply wp_ilock inv1 List.mem_cons_self
    intro s2 inv2 locks
    split
    · apply wp_iunlockput inv2
      exact fun s' inv' _ => .done inv'
    next notDir =>
        apply wp_store
        intro _
        have inv3 := inv2.earn rfl List.mem_cons_self locks.valid
        apply wp_release
        apply wp_namex (inv3.setLock ip none)
        · intro s4 dp name inv4 after4
          apply wp_ilock inv4 List.mem_cons_self
          intro s5 inv5 locks5
          have sameType : (s5.inode ip).type = (s2.inode ip).type := by
            rw [locks5.inode, after4.inode ip List.mem_cons_self]
            simp
          apply wp_dirlink inv5 List.mem_cons_self locks5.valid
            (List.mem_cons_of_mem _ List.mem_cons_self)
          · rw [sameType, locks.inode]
            exact locks.allocated
          · rwa [sameType]
          · intro s6 inv6 _
            apply wp_iunlockput inv6
            exact fun s7 inv7 _ => wp_linkBad inv7
          · intro s6 node inv6
            apply wp_iunlockput inv6
            intro s7 inv7 _
            apply wp_iput inv7
            exact fun s' inv' _ => .done inv'
        · exact fun s4 inv4 _ => wp_linkBad inv4
  · exact fun s' inv' _ => .done inv'

/-! ## `unlink` -/

theorem not_names_of_isdirempty {node : Inode} {h : Inum} (formed : node.Formed h)
    (empty : isdirempty node = true) (j : Inum) : ¬ node.Names j := by
  rintro ⟨used, de, member, rfl, proper⟩
  obtain ⟨parent, rest, dirents, _⟩ := formed
  rw [dirents] at member
  rcases List.mem_cons.mp member with rfl | later
  · exact proper.1 rfl
  · rcases List.mem_cons.mp later with rfl | later
    · exact proper.2 rfl
    · rw [isdirempty, dirents, List.all_eq_true] at empty
      exact used (by simpa using empty de later)

theorem Inv.clear {dp target : Inum} {name : Name} {off : Nat}
    (inv : Inv dots links s mine none) (member : dp ∈ mine)
    (valid : s.valid dp = true) (isDir : (s.inode dp).type = .dir)
    (present : (s.inode dp).dirents[off]? = some ⟨target, name⟩)
    (nonzero : target ≠ 0) (proper : Proper name)
    (empty : (s.inode target).type = .dir → isdirempty (s.inode target) = true) :
    Inv dots links
      (s.setInode dp ((s.inode dp).clear off (s.inode target).dotdots)) mine
      (some target) := by
  have tree := inv.tree.clear isDir present nonzero proper
    fun dir => not_names_of_isdirempty (inv.tree.formed target dir) (empty dir)
  apply inv.setInode tree rfl member valid
  intro _ de cleared used
  rcases List.mem_or_eq_of_mem_set cleared with old | rfl
  · exact Or.inl old
  · exact absurd rfl used

/-- The end of `sys_unlink`, with the entry cleared. -/
theorem wp_unlinked {dp : Inum} {node : Inode}
    (inv : Inv dots links s [i, dp] (some i)) (contents : s.inode i = node)
    (allocated : node.type ≠ .free) (valid : s.valid i = true) :
    Wp dots links pid (fun s => Inv dots links s [] none) s
      (iunlockput dp <| .store i { node with nlink := node.nlink - 1 } <|
        iunlockput i (.done 0)) := by
  apply wp_iunlockput (inv.perm (List.Perm.swap _ _ _))
  intro s1 inv1 after
  have same := after.inode i List.mem_cons_self
  have stillValid := after.valid i List.mem_cons_self
  apply wp_store
  intro _
  apply wp_iunlockput
    (inv1.spend (same.trans contents) allocated List.mem_cons_self (stillValid valid))
  exact fun s' inv' _ => .done inv'

/-- The stores of `sys_unlink` to the parent directory. -/
theorem wp_clear {dp : Inum} {off : Nat}
    (cleared : Inv dots links
      (s.setInode dp ((s.inode dp).clear off (s.inode i).dotdots)) [i, dp] (some i))
    (distinct : i ≠ dp) (allocated : (s.inode i).type ≠ .free)
    (valid : s.valid i = true) :
    let dnode := { s.inode dp with dirents := (s.inode dp).dirents.set off ⟨0, []⟩ }
    let rest := iunlockput dp <|
      .store i { s.inode i with nlink := (s.inode i).nlink - 1 } <|
        iunlockput i (.done 0)
    Wp dots links pid (fun s => Inv dots links s [] none) s
      (.store dp dnode <|
        if (s.inode i).type = .dir then
          .store dp { dnode with nlink := dnode.nlink - 1 } rest
        else rest) := by
  intro dnode rest
  have contents : ∀ node, (s.setInode dp node).inode i = s.inode i := by
    intro node
    rw [State.setInode_inode, Function.update_of_ne distinct]
  have finish : ∀ t,
      t = s.setInode dp ((s.inode dp).clear off (s.inode i).dotdots) →
      Wp dots links pid (fun s => Inv dots links s [] none) t rest := by
    rintro _ rfl
    exact wp_unlinked cleared (contents _) allocated valid
  apply wp_store
  intro _
  split
  next dir =>
      apply wp_store
      intro _
      apply finish
      simp [State.setInode, Inode.clear, Inode.dotdots, dir, dnode]
  next notDir =>
      apply finish
      simp [State.setInode, Inode.clear, Inode.dotdots, notDir, dnode]

theorem restores_sysUnlink (path : List Char) :
    Restores dots links (sysUnlink path) := by
  intro pid s inv
  rw [sysUnlink]
  apply wp_namex inv
  · intro s1 dp name inv1 _
    apply wp_ilock inv1 List.mem_cons_self
    intro s2 inv2 locks2
    have giveUp : Wp dots links pid (fun s => Inv dots links s [] none) s2
        (iunlockput dp (.done (-1))) := by
      apply wp_iunlockput inv2
      exact fun s' inv' _ => .done inv'
    split
    · exact giveUp
    next proper =>
        rw [not_or] at proper
        split
        · exact .panic fun _ => by simp
        next isDir =>
            rw [not_not] at isDir
            split
            · exact giveUp
            next inum off looked =>
                obtain ⟨present, nonzero⟩ := dirlookup_eq_some looked
                have liveDp : Live s2 dp :=
                  .held (inv2.ref_pos_of_mem List.mem_cons_self)
                apply wp_iget inv2
                  fun _ => .entry liveDp isDir (List.mem_of_getElem? present) nonzero
                intro s3 got inv3
                have after3 := iget_untouched got inv2
                apply wp_ilock inv3 List.mem_cons_self
                intro s4 inv4 locks4
                have inodes : s4.inode = s2.inode := by
                  rw [locks4.inode, (iget_same got).1]
                have distinct : inum ≠ dp := by
                  rintro rfl
                  have free := locks4.unlocked
                  rw [(iget_same got).2.1, locks2.lock, Function.update_self] at free
                  cases free
                have validDp : s4.valid dp = true :=
                  locks4.others dp (after3.valid dp List.mem_cons_self locks2.valid)
                split
                · exact .panic fun _ => by simp
                · split
                  · apply wp_iunlockput inv4
                    intro s5 inv5 _
                    apply wp_iunlockput inv5
                    exact fun s' inv' _ => .done inv'
                  next emptied =>
                      rw [← inodes] at isDir present ⊢
                      have cleared := inv4.clear
                        (List.mem_cons_of_mem _ List.mem_cons_self) validDp isDir
                        present nonzero proper
                        (fun dir => by simpa [dir] using emptied)
                      have allocated : (s4.inode inum).type ≠ .free := by
                        rw [locks4.inode]
                        exact locks4.allocated
                      exact wp_clear cleared distinct allocated locks4.valid
  · exact fun s' inv' _ => .done inv'

/-! ## `create` -/

/-- A free inode has become a new inode, entered in its parent directory. -/
structure Created (s s' : State) (dp ip : Inum) (name : Name) (node : Inode) :
    Prop where
  inode : s'.inode = Function.update (Function.update s.inode ip node) dp
    ((s.inode dp).insert ⟨ip, name⟩ node.dotdots)
  ninodes : s'.ninodes = s.ninodes
  ref : ∀ j, s'.ref j = s.ref j + refers (some ip) j
  others : ∀ j, j ≠ ip → s'.valid j = s.valid j
  cwd : s'.cwd = s.cwd
  ftable : s'.ftable = s.ftable

theorem Inv.create {dp ip : Inum} {name : Name} {node : Inode}
    (inv : Inv dots links s mine none) (member : dp ∈ mine)
    (valid : s.valid dp = true) (isDir : (s.inode dp).type = .dir)
    (unused : dirlookup (s.inode dp) name = none) (isFree : s.IsFree ip)
    (nonfree : node.type ≠ .free) (nlink : node.nlink = 1)
    (contents : node.type = .dir →
      node.dirents = [⟨ip, ['.']⟩, ⟨dp, ['.', '.']⟩])
    (reached : links → Reached s.inode dp)
    (created : Created s s' dp ip name node) :
    Inv dots links s' (ip :: mine) none := by
  obtain ⟨positive, inside, free⟩ := isFree
  have distinct : dp ≠ ip := by
    rintro rfl
    simp [isDir] at free
  have dpNonzero : dp ≠ 0 := (inv.tree.nonzero_of_dir isDir).1
  have notRoot : ip ≠ rootino := by
    rintro rfl
    simp [inv.tree.rootDir] at free
  have tree1 := inv.tree.create free positive inside nlink contents dpNonzero
  have dpSame : Function.update s.inode ip node dp = s.inode dp :=
    Function.update_of_ne distinct _ _
  have ipSame : Function.update s.inode ip node ip = node := Function.update_self ..
  have reached1 : links → Reached (Function.update s.inode ip node) dp := by
    intro exactly
    apply (reached exactly).mono
    intro h j dirH named
    have unlike : h ≠ ip := by
      rintro rfl
      simp [free] at dirH
    rw [Function.update_of_ne unlike]
    exact ⟨dirH, named⟩
  have unnamed : (Function.update s.inode ip node ip).type = .dir →
      names (Function.update s.inode ip node) s.ninodes ip = 0 ∧
        (Function.update s.inode ip node ip).parent = some dp := by
    rw [ipSame]
    intro dir
    have law := tree1.law ip (by rwa [ipSame])
    rw [ipSame, nlink] at law
    simp only [refers, if_true] at law
    refine ⟨by omega, ?_⟩
    rw [Inode.parent, contents dir]
    rfl
  have tree : Tree links s'.inode s'.ninodes none := by
    have entered := tree1.insert (by rwa [dpSame]) (by rwa [dpSame])
      (by rwa [ipSame]) notRoot unnamed reached1
    rw [dpSame, ipSame] at entered
    rw [created.inode, created.ninodes]
    exact entered
  have there : s'.inode ip = node := by
    rw [created.inode, Function.update_of_ne distinct.symm, ipSame]
  have parent : s'.inode dp = (s.inode dp).insert ⟨ip, name⟩ node.dotdots := by
    rw [created.inode, Function.update_self]
  have other : ∀ j, j ≠ ip → j ≠ dp → s'.inode j = s.inode j := by
    intro j unlikeIp unlikeDp
    rw [created.inode, Function.update_of_ne unlikeDp, Function.update_of_ne unlikeIp]
  have types : ∀ j, j ≠ ip → (s'.inode j).type = (s.inode j).type := by
    intro j unlike
    by_cases same : j = dp
    · subst same
      rw [parent, Inode.insert_type]
    · rw [other j unlike same]
  have refs : ∀ j, j ≠ ip → s'.ref j = s.ref j := by
    intro j unlike
    rw [created.ref]
    simp [refers, unlike.symm]
  refine ⟨tree, ?_, ?_, ?_, ?_, ?_⟩
  · obtain ⟨pids, outside, counted⟩ := inv.counted
    refine ⟨pids, by rwa [created.cwd], fun j => ?_⟩
    have total := counted j
    simp only [State.held, created.cwd, created.ftable] at total ⊢
    rw [created.ref, total, List.count_cons]
    simp only [refers, Option.some.injEq, beq_iff_eq]
    omega
  · intro j isValid referenced
    by_cases same : j = ip
    · subst same
      rwa [there]
    · rw [created.others j same] at isValid
      rw [refs j same] at referenced
      rw [types j same]
      exact inv.cached j isValid referenced
  · intro exactly j nonfreeJ unlinked
    have unlike : j ≠ ip := by
      rintro rfl
      rw [there, nlink] at unlinked
      cases unlinked
    rw [refs j unlike, created.others j unlike]
    by_cases same : j = dp
    · subst same
      exact ⟨inv.ref_pos_of_mem member, valid⟩
    · rw [other j unlike same] at nonfreeJ unlinked
      exact inv.kept exactly j nonfreeJ unlinked
  · rw [created.ftable]
    exact inv.files
  · intro dotted j now
    have before : j = ip ∨ Live s j := by
      induction now with
      | root => exact Or.inr .root
      | @held j referenced =>
          by_cases same : j = ip
          · exact Or.inl same
          · rw [refs j same] at referenced
            exact Or.inr (.held referenced)
      | @entry h de _ dirH present used ih =>
          by_cases newDir : h = ip
          · subst newDir
            rw [there] at dirH present
            rw [contents dirH] at present
            simp only [List.mem_cons, List.not_mem_nil, or_false] at present
            rcases present with rfl | rfl
            · exact Or.inl rfl
            · exact Or.inr (.held (inv.ref_pos_of_mem member))
          · have liveH : Live s h := ih.resolve_left newDir
            rw [types h newDir] at dirH
            by_cases same : h = dp
            · subst same
              rw [parent, Inode.insert_dirents] at present
              rcases mem_insertDirent present with rfl | old
              · exact Or.inl rfl
              · exact Or.inr (.entry liveH dirH old used)
            · rw [other h newDir same] at present
              exact Or.inr (.entry liveH dirH present used)
    by_cases same : j = ip
    · subst same
      rwa [there]
    · rw [types j same]
      exact inv.live dotted j (before.resolve_left same)

theorem wp_ilock_new {post : State → Prop} {next : Inode → Prog}
    (allocated : (s.inode i).type ≠ .free)
    (rest : Wp dots links pid post ((s.setLock i (some pid)).setValid i true)
      (next (s.inode i))) :
    Wp dots links pid post s (ilock i next) := by
  rw [ilock]
  refine Wp.step trivial ?_
  intro choice s' after _ stepped
  simp only [Prog.step] at stepped
  split at stepped
  next =>
      cases stepped
      refine Wp.step trivial ?_
      intro choice s' after _ stepped
      simp only [Prog.step] at stepped
      split at stepped
      next valid =>
          cases stepped
          have same : (s.setLock i (some pid)).setValid i true =
              s.setLock i (some pid) := by
            have already : Function.update s.valid i true = s.valid := by
              rw [← show s.valid i = true from valid, Function.update_eq_self]
            simp [State.setValid, State.setLock, already]
          rwa [same] at rest
      next =>
          split at stepped
          next free => exact absurd free allocated
          next =>
              cases stepped
              exact rest
  next => cases stepped

/-- `dirlink` of a name that is not present. -/
theorem wp_dirlink_new {post : State → Prop} {dp ip : Inum} {name : Name}
    {dnode : Inode} {next : Option Inode → Prog}
    (unused : dirlookup dnode name = none)
    (rest : Wp dots links pid post
      (s.setInode dp
        { dnode with dirents := insertDirent ⟨ip, name⟩ dnode.dirents })
      (next (some
        { dnode with dirents := insertDirent ⟨ip, name⟩ dnode.dirents }))) :
    Wp dots links pid post s (dirlink dp dnode name ip next) := by
  rw [dirlink]
  split
  · exact .panic fun _ => by simp
  · rw [unused]
    dsimp only
    split
    · exact .panic fun _ => by simp
    · exact wp_store fun _ => rest

theorem wp_ialloc {dp : Inum} {name : Name} {type : FileType} {major minor : Int}
    {next : Option Inum → Prog} {post : State → Prop}
    (inv : Inv dots links s [dp] none) (locked : s.lock dp = some pid)
    (valid : s.valid dp = true) (isDir : (s.inode dp).type = .dir)
    (unused : dirlookup (s.inode dp) name = none) (nonfree : type ≠ .free)
    (rest : ∀ s' ip, Inv dots links s' [ip] none →
      Wp dots links pid post s' (next (some ip))) :
    Wp dots links pid post s (.ialloc type fun ip =>
      createNew dp (s.inode dp) name ip type major minor next) := by
  refine Wp.step trivial ?_
  intro ip s' after guard stepped
  simp only [Prog.step] at stepped
  split at stepped
  next isFree =>
      split at stepped
      next got =>
          cases stepped
          obtain ⟨inode1, _, cwd1, ftable1, ninodes1, _⟩ := iget_same got
          have reached : links → Reached s.inode dp := by
            intro exactly
            apply inv.tree.reached_of_nlink exactly isDir (guard exactly dp locked)
            simp
          have distinct : dp ≠ ip := by
            rintro rfl
            exact absurd isFree.2.2 (by simp [isDir])
          have others : ∀ j, j ≠ ip → s'.valid j = s.valid j := by
            intro j unlike
            unfold State.iget at got
            split at got
            · cases got
              rfl
            · split at got
              · cases got
              · cases got
                simp [Function.update_of_ne unlike]
          have finish : ∀ t node, node.type = type → node.nlink = 1 →
              (type = .dir → node.dirents = [⟨ip, ['.']⟩, ⟨dp, ['.', '.']⟩]) →
              t.inode = Function.update (Function.update s.inode ip node) dp
                ((s.inode dp).insert ⟨ip, name⟩ node.dotdots) →
              t.ninodes = s'.ninodes → t.ref = s'.ref →
              t.valid = Function.update s'.valid ip true → t.cwd = s'.cwd →
              t.ftable = s'.ftable →
              Wp dots links pid post t (iunlockput dp (next (some ip))) := by
            rintro t node rfl nlink contents inode ninodes ref valids cwd ftable
            have created : Created s t dp ip name node := by
              refine ⟨inode, ninodes.trans ninodes1, fun j => ?_, ?_,
                cwd.trans cwd1, ftable.trans ftable1⟩
              · rw [ref]
                exact iget_ref got j
              · intro j unlike
                rw [valids, Function.update_of_ne unlike, others j unlike]
            have inv1 := inv.create List.mem_cons_self valid isDir unused isFree
              nonfree nlink contents reached created
            apply wp_iunlockput (inv1.perm (List.Perm.swap _ _ _))
            exact fun s'' inv2 _ => rest s'' ip inv2
          rw [createNew]
          apply wp_ilock_new
          · simpa [inode1, State.newInode] using nonfree
          · have newNode : s'.inode ip = State.newInode type := by simp [inode1]
            have dpNode : s'.inode dp = s.inode dp := by
              simp [inode1, Function.update_of_ne distinct]
            rw [newNode]
            apply wp_store
            intro _
            split
            next dir =>
                subst dir
                apply wp_store
                intro _
                apply wp_dirlink_new rfl
                apply wp_dirlink_new
                · simp [dirlookup, dirlookupFrom, State.newInode, insertDirent]
                · apply wp_dirlink_new
                  · exact unused
                  · have nonzero : ip ≠ 0 := Nat.ne_of_gt isFree.1
                    refine finish _
                      ⟨.dir, major, minor, 1, [⟨ip, ['.']⟩, ⟨dp, ['.', '.']⟩]⟩
                      rfl rfl (fun _ => rfl) ?_ rfl rfl rfl rfl rfl
                    funext j
                    by_cases same : j = dp
                    · subst same
                      simp [Inode.insert, Inode.dotdots]
                    · by_cases new : j = ip
                      · subst new
                        simp [same, State.newInode, insertDirent, nonzero]
                      · simp [inode1, same, new]
            next notDir =>
                apply wp_dirlink_new unused
                refine finish _
                  { State.newInode type with major := major, minor := minor, nlink := 1 }
                  rfl rfl (fun dir => absurd dir notDir) ?_ rfl rfl rfl rfl rfl
                funext j
                by_cases same : j = dp
                · subst same
                  simp [Inode.insert, Inode.dotdots, State.newInode, notDir]
                · by_cases new : j = ip
                  · subst new
                    simp [inode1, same]
                  · simp [inode1, same, new]
      next =>
          cases stepped
          exact .panic fun _ => by simp
  next =>
      split at stepped
      · cases stepped
        exact .panic fun _ => by simp
      · cases stepped

theorem wp_create {path : List Char} {type : FileType} {major minor : Int}
    {next : Option (Inum × FileType) → Prog} {post : State → Prop}
    (inv : Inv dots links s [] none) (nonfree : type ≠ .free)
    (made : ∀ s' ip seen, Inv dots links s' [ip] none →
      Wp dots links pid post s' (next (some (ip, seen))))
    (failed : ∀ s', Inv dots links s' [] none →
      Wp dots links pid post s' (next none)) :
    Wp dots links pid post s (create path type major minor next) := by
  rw [create]
  apply wp_namex inv
  · intro s1 dp name inv1 _
    apply wp_ilock inv1 List.mem_cons_self
    intro s2 inv2 locks
    split
    · exact .panic fun _ => by simp
    next isDir =>
        rw [not_not] at isDir
        split
        next inum off looked =>
            obtain ⟨present, nonzero⟩ := dirlookup_eq_some looked
            have liveDp : Live s2 dp :=
              .held (inv2.ref_pos_of_mem List.mem_cons_self)
            apply wp_iget inv2
              fun _ => .entry liveDp isDir (List.mem_of_getElem? present) nonzero
            intro s3 _ inv3
            apply wp_iunlockput (inv3.perm (List.Perm.swap _ _ _))
            intro s4 inv4 _
            apply wp_ilock inv4 List.mem_cons_self
            intro s5 inv5 locks5
            split
            · exact made s5 inum _ inv5
            · apply wp_iunlockput inv5
              exact fun s' inv' _ => failed s' inv'
        next unused =>
            apply wp_ialloc inv2 _ locks.valid isDir unused nonfree
            · exact fun s' ip inv' => made s' ip type inv'
            · rw [locks.lock, Function.update_self]
  · exact fun s' inv' _ => failed s' inv'

/-! ## Open files and current directories -/

namespace Inv

theorem setOfile (inv : Inv dots links s mine extra) (p : Pid) (fd : Fin nofile)
    (f : Option (Fin nfile)) : Inv dots links (s.setOfile p fd f) mine extra where
  tree := inv.tree
  counted := inv.counted
  cached := inv.cached
  kept := inv.kept
  files := inv.files
  live dotted k live := by
    have before : Live s k :=
      Live.of_same_inodes s (s.setOfile p fd f) rfl (fun _ positive => .held positive)
        live
    exact inv.live dotted k before

/-- An entry of the file table changes. -/
theorem setFile (inv : Inv dots links s mine extra) {mine' : List Inum}
    {f : Fin nfile} {file : File}
    (moved : ∀ j, refers file.ip j + mine'.count j =
      refers (s.ftable f).ip j + mine.count j)
    (unused : file.ref = 0 → file.ip = none) :
    Inv dots links (s.setFile f file) mine' extra where
  tree := inv.tree
  counted := by
    obtain ⟨pids, outside, counted⟩ := inv.counted
    refine ⟨pids, outside, fun j => ?_⟩
    have changed := held_setFile s pids f file j
    have total := counted j
    have shift := moved j
    rw [State.setFile_ref]
    omega
  cached := inv.cached
  kept := inv.kept
  files g free := by
    rw [State.setFile_ftable] at free ⊢
    by_cases same : g = f
    · subst same
      rw [Function.update_self] at free ⊢
      exact unused free
    · rw [Function.update_of_ne same] at free ⊢
      exact inv.files g free
  live dotted k live := by
    have before : Live s k :=
      Live.of_same_inodes s (s.setFile f file) rfl (fun _ positive => .held positive)
        live
    exact inv.live dotted k before

/-- A current directory changes. -/
theorem setCwd (inv : Inv dots links s mine extra) {mine' : List Inum} {p : Pid}
    {target : Option Inum}
    (moved : ∀ j, refers target j + mine'.count j =
      refers (s.cwd p) j + mine.count j) :
    Inv dots links (s.setCwd p target) mine' extra where
  tree := inv.tree
  counted := by
    obtain ⟨pids, outside, counted⟩ := inv.counted
    refine ⟨insert p pids, ?_, fun j => ?_⟩
    · intro other absent
      rw [Finset.mem_insert, not_or] at absent
      rw [State.setCwd_cwd, Function.update_of_ne absent.1]
      exact outside other absent.2
    · have grown : s.held (insert p pids) j = s.held pids j := by
        by_cases known : p ∈ pids
        · rw [Finset.insert_eq_of_mem known]
        · have none : refers (s.cwd p) j = 0 := by simp [outside p known, refers]
          simp only [State.held]
          rw [Finset.sum_insert known, none, Nat.zero_add]
      have changed := held_setCwd s (Finset.mem_insert_self p pids) target j
      have total := counted j
      have shift := moved j
      rw [State.setCwd_ref]
      omega
  cached := inv.cached
  kept := inv.kept
  files := inv.files
  live dotted k live := by
    have before : Live s k :=
      Live.of_same_inodes s (s.setCwd p target) rfl (fun _ positive => .held positive)
        live
    exact inv.live dotted k before

end Inv

theorem findFile_free {p : Pid} {fd : Fin nofile} {f : Fin nfile}
    (found : s.findFile p = some (fd, f)) : (s.ftable f).ref = 0 := by
  unfold State.findFile at found
  split at found
  next free _ =>
      cases found
      simpa using List.find?_some free
  next => cases found

theorem wp_openFile (inv : Inv dots links s [i] none) :
    Wp dots links pid (fun s => Inv dots links s [] none) s (openFile i) := by
  rw [openFile]
  refine Wp.step trivial ?_
  intro choice s' after _ stepped
  simp only [Prog.step] at stepped
  split at stepped
  next fd f found =>
      cases stepped
      have empty := inv.files f (findFile_free found)
      apply wp_release
      refine Wp.step trivial ?_
      intro choice s' after _ stepped
      cases stepped
      apply Wp.done
      have reserved : Inv dots links (s.setFile f ⟨1, none⟩) [i] none := by
        refine inv.setFile ?_ (by rintro ⟨⟩)
        intro j
        rw [empty]
      apply ((reserved.setOfile pid fd (some f)).setLock i none).setFile
      · intro j
        simp [refers, List.count_cons]
      · intro unused
        simp at unused
  next =>
      cases stepped
      apply wp_iunlockput inv
      exact fun s' inv' _ => .done inv'

theorem restores_sysOpen (path : List Char) (create? rdonly : Bool) :
    Restores dots links (sysOpen path create? rdonly) := by
  intro pid s inv
  rw [sysOpen]
  split
  · refine wp_create inv nofun ?_ fun s' inv' => .done inv'
    exact fun s' ip _ inv' => wp_openFile inv'
  · apply wp_namei inv
    · intro s1 ip inv1 _
      apply wp_ilock inv1 List.mem_cons_self
      intro s2 inv2 _
      split
      · apply wp_iunlockput inv2
        exact fun s' inv' _ => .done inv'
      · exact wp_openFile inv2
    · exact fun s' inv' _ => .done inv'

theorem restores_sysMkdir (path : List Char) :
    Restores dots links (sysMkdir path) := by
  intro pid s inv
  rw [sysMkdir]
  refine wp_create inv nofun ?_ fun s' inv' => .done inv'
  intro s1 ip _ inv1
  apply wp_iunlockput inv1
  exact fun s' inv' _ => .done inv'

theorem restores_sysMknod (path : List Char) (major minor : Int) :
    Restores dots links (sysMknod path major minor) := by
  intro pid s inv
  rw [sysMknod]
  refine wp_create inv nofun ?_ fun s' inv' => .done inv'
  intro s1 ip _ inv1
  apply wp_iunlockput inv1
  exact fun s' inv' _ => .done inv'

theorem restores_sysExec (path : List Char) : Restores dots links (sysExec path) := by
  intro pid s inv
  rw [sysExec]
  apply wp_namei inv
  · intro s1 ip inv1 _
    apply wp_ilock inv1 List.mem_cons_self
    intro s2 inv2 _
    apply wp_iunlockput inv2
    exact fun s' inv' _ => .done inv'
  · exact fun s' inv' _ => .done inv'

/-- The current directory becomes a reference of the call. -/
theorem wp_takeCwd {post : State → Prop} {next : Inum → Prog}
    (inv : Inv dots links s mine extra)
    (rest : ∀ s' cwd, Inv dots links s' (cwd :: mine) extra → s'.cwd pid = none →
      Wp dots links pid post s' (next cwd)) :
    Wp dots links pid post s (.takeCwd next) := by
  refine Wp.step trivial ?_
  intro choice s' after _ stepped
  simp only [Prog.step] at stepped
  split at stepped
  next cwd current =>
      cases stepped
      have taken : Inv dots links (s.setCwd pid none) (cwd :: mine) extra := by
        refine inv.setCwd ?_
        intro j
        rw [current, List.count_cons]
        simp [refers, Nat.add_comm]
      exact rest _ cwd taken (Function.update_self ..)
  next => cases stepped

theorem restores_sysChdir (path : List Char) : Restores dots links (sysChdir path) := by
  intro pid s inv
  rw [sysChdir]
  apply wp_namei inv
  · intro s1 ip inv1 _
    apply wp_ilock inv1 List.mem_cons_self
    intro s2 inv2 _
    split
    · apply wp_iunlockput inv2
      exact fun s' inv' _ => .done inv'
    · apply wp_release
      apply wp_takeCwd (inv2.setLock ip none)
      intro s3 cwd inv3 gone
      apply wp_iput inv3
      intro s4 inv4 after
      refine Wp.step trivial ?_
      intro choice s' next _ stepped
      cases stepped
      apply Wp.done
      refine inv4.setCwd fun j => ?_
      rw [after.cwd, gone]
      simp [refers, List.count_cons]
  · exact fun s' inv' _ => .done inv'

/-! ## `close`, `exit` and `fork` -/

theorem wp_fileclose {post : State → Prop} {fd : Fin nofile} {closed next : Prog}
    (inv : Inv dots links s [] none)
    (otherwise : ∀ s', Inv dots links s' [] none →
      Wp dots links pid post s' closed)
    (rest : ∀ s', Inv dots links s' [] none → Wp dots links pid post s' next) :
    Wp dots links pid post s (fileclose fd closed next) := by
  rw [fileclose]
  refine Wp.step trivial ?_
  intro choice s' after _ stepped
  simp only [Prog.step] at stepped
  split at stepped
  next f _ =>
      have dropped := inv.setOfile pid fd none
      split at stepped
      next =>
          cases stepped
          cases target : (s.ftable f).ip with
          | some ip =>
              have mine : Inv dots links
                  ((s.setOfile pid fd none).setFile f ⟨0, none⟩) [ip] none := by
                refine dropped.setFile ?_ fun _ => rfl
                intro j
                simp [target, refers, List.count_cons]
              exact wp_iput mine fun s' inv' _ => rest s' inv'
          | none =>
              apply rest
              refine dropped.setFile ?_ fun _ => rfl
              intro j
              simp [target]
      next shares =>
          cases stepped
          apply rest
          refine dropped.setFile (fun _ => rfl) fun unused => ?_
          have count : (s.ftable f).ref - 1 = 0 := unused
          omega
  next =>
      cases stepped
      exact otherwise s inv

theorem wp_closeAll {post : State → Prop} {next : Prog}
    (rest : ∀ s', Inv dots links s' [] none → Wp dots links pid post s' next)
    (fds : List (Fin nofile)) :
    ∀ s, Inv dots links s [] none →
      Wp dots links pid post s (closeAll next fds) := by
  induction fds with
  | nil => exact rest
  | cons fd fds ih => exact fun s inv => wp_fileclose inv ih ih

theorem restores_sysExit : Restores dots links sysExit := by
  intro pid s inv
  rw [sysExit]
  refine wp_closeAll ?_ _ s inv
  intro s1 inv1
  apply wp_takeCwd inv1
  intro s2 cwd inv2 _
  apply wp_iput inv2
  exact fun s' inv' _ => .done inv'

theorem Inv.fork (inv : Inv dots links s mine extra) {child : Pid}
    (current : s.cwd pid = some i) (unused : s.cwd child = none) :
    Inv dots links (s.forkFiles pid child i) mine extra := by
  have positive := inv.ref_pos_of_held (Or.inl ⟨pid, current⟩)
  have same : ∀ j, (s.forkFiles pid child i).ref j = s.ref j + refers (some i) j := by
    intro j
    by_cases equal : j = i
    · subst equal
      simp [State.forkFiles, refers]
    · simp [State.forkFiles, refers, Function.update_of_ne equal, Ne.symm equal]
  refine ⟨inv.tree, ?_, ?_, ?_, ?_, ?_⟩
  · obtain ⟨pids, outside, counted⟩ := inv.counted
    refine ⟨insert child pids, ?_, fun j => ?_⟩
    · intro p absent
      rw [Finset.mem_insert, not_or] at absent
      simpa [State.forkFiles, Function.update_of_ne absent.1] using outside p absent.2
    · have total := counted j
      rw [same, held_forkFiles _ _ _ unused]
      omega
  · exact inv.cached.setRef (i := i) fun _ => positive
  · intro exactly j nonfree unlinked
    have before := inv.kept exactly j nonfree unlinked
    exact ⟨by rw [same]; omega, before.2⟩
  · intro f free
    apply inv.files f
    have count : (s.ftable f).ref + s.descriptors pid f = 0 := free
    omega
  · intro dotted j live
    have before : Live s j := by
      refine Live.of_same_inodes s (s.forkFiles pid child i) rfl ?_ live
      intro k referenced
      by_cases equal : k = i
      · subst equal
        exact .held positive
      · rw [same] at referenced
        exact .held (by simpa [refers, Ne.symm equal] using referenced)
    exact inv.live dotted j before

theorem restores_sysFork (child : Pid) : Restores dots links (sysFork child) := by
  intro pid s inv
  rw [sysFork]
  refine Wp.step trivial ?_
  intro choice s' after _ stepped
  simp only [Prog.step] at stepped
  split at stepped
  next i current =>
      split at stepped
      next unused =>
          cases stepped
          exact .done (inv.fork current unused.1)
      next => cases stepped
  next => cases stepped

/-- Every system call restores the file system that it found. -/
theorem restores_syscall (syscall : Syscall) :
    Restores dots links syscall.prog := by
  cases syscall with
  | «open» path create? rdonly => exact restores_sysOpen path create? rdonly
  | link old new => exact restores_sysLink old new
  | unlink path => exact restores_sysUnlink path
  | mkdir path => exact restores_sysMkdir path
  | mknod path major minor => exact restores_sysMknod path major minor
  | chdir path => exact restores_sysChdir path
  | exec path => exact restores_sysExec path
  | close fd =>
      intro pid s inv
      exact wp_fileclose inv (fun s' inv' => .done inv') fun s' inv' => .done inv'
  | exit => exact restores_sysExit
  | fork child => exact restores_sysFork child

end Calls

end Xv6.Fs
