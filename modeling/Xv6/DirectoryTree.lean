import Xv6.InodeLocks

/-!
# The directory tree

What the inodes on disk look like between changes.  Each directory starts with
its "." and ".." entries, its other entries name allocated inodes, and a
directory is named at most once, by its parent.  The link count of an inode is
at least the number of entries that name it and, for a directory, of
subdirectories; one inode may have a link more, while a call is about to enter
it somewhere or has just removed an entry.  Under `links` the counts are exact
and every directory that has entries can be reached from the root.
-/

namespace Xv6.Fs

/-! ## Counting entries -/

theorem countP_insertDirent {p : Dirent → Bool} {new : Dirent}
    (empty : ∀ de, de.inum = 0 → p de = false) (dirents : List Dirent) :
    (insertDirent new dirents).countP p =
      dirents.countP p + if p new then 1 else 0 := by
  induction dirents with
  | nil => simp [insertDirent, List.countP_cons]
  | cons slot rest ih =>
      rw [insertDirent]
      split
      next free =>
          rw [List.countP_cons, List.countP_cons, empty slot free]
          simp
      next => rw [List.countP_cons, List.countP_cons, ih, Nat.add_right_comm]

theorem countP_clear {p : Dirent → Bool} {dirents : List Dirent} {off : Nat}
    {de : Dirent} (present : dirents[off]? = some de) (empty : p ⟨0, []⟩ = false) :
    (dirents.set off ⟨0, []⟩).countP p + (if p de then 1 else 0) =
      dirents.countP p := by
  induction dirents generalizing off with
  | nil => simp at present
  | cons slot rest ih =>
      cases off with
      | zero =>
          rw [List.getElem?_cons_zero, Option.some.injEq] at present
          subst present
          rw [List.set_cons_zero, List.countP_cons, List.countP_cons, empty]
          simp
      | succ off =>
          rw [List.getElem?_cons_succ] at present
          have rest := ih present
          rw [List.set_cons_succ, List.countP_cons, List.countP_cons]
          omega

theorem mem_insertDirent_of_mem {new de : Dirent} {dirents : List Dirent}
    (member : de ∈ dirents) (used : de.inum ≠ 0) :
    de ∈ insertDirent new dirents := by
  induction dirents with
  | nil => cases member
  | cons slot rest ih =>
      rw [insertDirent]
      rcases List.mem_cons.mp member with rfl | later
      · rw [if_neg used]
        exact List.mem_cons_self
      · split
        · exact List.mem_cons_of_mem _ later
        · exact List.mem_cons_of_mem _ (ih later)

theorem mem_insertDirent_self (new : Dirent) (dirents : List Dirent) :
    new ∈ insertDirent new dirents := by
  induction dirents with
  | nil => exact List.mem_cons_self
  | cons slot rest ih =>
      rw [insertDirent]
      split
      · exact List.mem_cons_self
      · exact List.mem_cons_of_mem _ ih

/-- The entries other than "." and ".." of a directory that name an inode. -/
def Inode.entries (node : Inode) (i : Inum) : Nat :=
  if node.type = .dir then
    node.dirents.countP fun de => de.inum = i ∧ Proper de.name
  else 0

/-- The number of entries that name an inode. -/
def names (inode : Inum → Inode) (n : Nat) (i : Inum) : Nat :=
  ∑ h ∈ Finset.range n, (inode h).entries i

/-- The number of subdirectories. -/
def kids (inode : Inum → Inode) (h : Inum) : Nat :=
  if (inode h).type = .dir then
    (inode h).dirents.countP fun de =>
      de.inum ≠ 0 ∧ Proper de.name ∧ (inode de.inum).type = .dir
  else 0

/-- The target of "..". -/
def Inode.parent (node : Inode) : Option Inum :=
  node.dirents[1]?.map Dirent.inum

/-- The directory starts with "." and "..". -/
def Inode.Formed (node : Inode) (h : Inum) : Prop :=
  ∃ parent rest, node.dirents = ⟨h, ['.']⟩ :: ⟨parent, ['.', '.']⟩ :: rest ∧
    h ≠ 0 ∧ parent ≠ 0 ∧ ∀ de ∈ rest, de.inum ≠ 0 → Proper de.name

/-- The inodes that paths from the root lead to. -/
inductive Reached (inode : Inum → Inode) : Inum → Prop
  | root : Reached inode rootino
  | entry {h i : Inum} : Reached inode h → (inode h).type = .dir →
      (inode h).Names i → Reached inode i

theorem entries_pos_iff {node : Inode} {i : Inum} (nonzero : i ≠ 0) :
    0 < node.entries i ↔ node.type = .dir ∧ node.Names i := by
  unfold Inode.entries
  split
  next isDir =>
      rw [List.countP_pos_iff]
      simp only [isDir, true_and, Inode.Names, decide_eq_true_eq]
      constructor
      · rintro ⟨de, member, target, proper⟩
        exact ⟨nonzero, de, member, target, proper⟩
      · rintro ⟨_, de, member, target, proper⟩
        exact ⟨de, member, target, proper⟩
  next notDir => simp [notDir]

theorem entries_eq_zero {node : Inode} {i : Inum} (nonzero : i ≠ 0)
    (unnamed : node.type = .dir → ¬ node.Names i) : node.entries i = 0 := by
  by_contra positive
  obtain ⟨isDir, named⟩ := (entries_pos_iff nonzero).mp (Nat.pos_of_ne_zero positive)
  exact unnamed isDir named

theorem entries_le_names (inode : Inum → Inode) {n h : Nat} (inside : h < n)
    (i : Inum) : (inode h).entries i ≤ names inode n i :=
  Finset.single_le_sum (f := fun h => (inode h).entries i)
    (fun _ _ => Nat.zero_le _) (Finset.mem_range.mpr inside)

theorem names_update (inode : Inum → Inode) {n h : Nat} (inside : h < n)
    (node : Inode) (i : Inum) :
    names (Function.update inode h node) n i + (inode h).entries i =
      names inode n i + node.entries i :=
  Counting.sum_update_add (Inode.entries · i) inode
    (Finset.mem_range.mpr inside) node

theorem exists_of_names_pos {inode : Inum → Inode} {n : Nat} {i : Inum}
    (nonzero : i ≠ 0) (positive : 0 < names inode n i) :
    ∃ h, h < n ∧ (inode h).type = .dir ∧ (inode h).Names i := by
  have some := Finset.exists_ne_zero_of_sum_ne_zero (Nat.ne_of_gt positive)
  obtain ⟨h, inside, counted⟩ := some
  have named := (entries_pos_iff nonzero).mp (Nat.pos_of_ne_zero counted)
  exact ⟨h, Finset.mem_range.mp inside, named.1, named.2⟩

/-- A directory with a new entry and more links. -/
@[simps -fullyApplied]
def Inode.insert (node : Inode) (new : Dirent) (links : Nat) : Inode :=
  { node with
    dirents := insertDirent new node.dirents
    nlink := node.nlink + links }

/-- A directory with a slot cleared and fewer links. -/
@[simps -fullyApplied]
def Inode.clear (node : Inode) (off links : Nat) : Inode :=
  { node with
    dirents := node.dirents.set off ⟨0, []⟩
    nlink := node.nlink - links }

/-- The links that a directory gets from an entry: one for the ".." of a
subdirectory. -/
def Inode.dotdots (node : Inode) : Nat :=
  if node.type = .dir then 1 else 0

theorem entries_insert {node : Inode} {ip i : Inum} {name : Name} {links : Nat}
    (isDir : node.type = .dir) (proper : Proper name) (nonzero : i ≠ 0) :
    (node.insert ⟨ip, name⟩ links).entries i =
      node.entries i + refers (some ip) i := by
  simp only [Inode.entries, Inode.insert_type, Inode.insert_dirents, isDir, if_true]
  rw [countP_insertDirent]
  · simp [refers, proper]
  · intro de free
    simp [free, nonzero.symm]

theorem entries_clear {node : Inode} {target i : Inum} {name : Name}
    {off : Nat} (isDir : node.type = .dir)
    (present : node.dirents[off]? = some ⟨target, name⟩) (proper : Proper name)
    (nonzero : i ≠ 0) (links : Nat) :
    (node.clear off links).entries i + refers (some target) i =
      node.entries i := by
  have cleared := countP_clear
    (p := fun de => decide (de.inum = i ∧ Proper de.name)) present
    (by simp [nonzero.symm])
  simp only [Inode.entries, Inode.clear_type, Inode.clear_dirents, isDir, if_true]
  simpa [refers, proper] using cleared

/-! ## The tree -/

/-- A well formed directory tree. -/
structure Tree (links : Prop) (inode : Inum → Inode) (n : Nat)
    (extra : Option Inum) : Prop where
  rootDir : (inode rootino).type = .dir
  rootParent : (inode rootino).parent = some rootino
  numbered : ∀ i, (inode i).type ≠ .free → 0 < i ∧ i < n
  formed : ∀ h, (inode h).type = .dir → (inode h).Formed h
  target : ∀ h i, (inode h).type = .dir → (inode h).Names i →
    (inode i).type ≠ .free ∧ i ≠ rootino ∧
      ((inode i).type = .dir → (inode i).parent = some h)
  single : ∀ i, (inode i).type = .dir → names inode n i ≤ 1
  law : ∀ i, (inode i).type ≠ .free →
    names inode n i + kids inode i + refers extra i + refers (some rootino) i ≤
      (inode i).nlink
  exact : links → ∀ i, i ≠ rootino → (inode i).type ≠ .free →
    names inode n i + kids inode i + refers extra i = (inode i).nlink
  rooted : links → ∀ h i, (inode h).type = .dir → (inode h).Names i →
    Reached inode h

theorem Reached.mono {inode inode' : Inum → Inode}
    (kept : ∀ h i, (inode h).type = .dir → (inode h).Names i →
      (inode' h).type = .dir ∧ (inode' h).Names i)
    {i : Inum} (reached : Reached inode i) : Reached inode' i := by
  induction reached with
  | root => exact .root
  | entry _ isDir named ih =>
      obtain ⟨isDir', named'⟩ := kept _ _ isDir named
      exact .entry ih isDir' named'

theorem kids_congr {inode inode' : Inum → Inode} {h : Inum}
    (types : ∀ i, (inode' i).type = (inode i).type)
    (dirents : (inode' h).dirents = (inode h).dirents) :
    kids inode' h = kids inode h := by
  simp only [kids, types, dirents]

theorem names_congr {inode inode' : Inum → Inode} {n : Nat} {i : Inum}
    (entries : ∀ h, (inode' h).entries i = (inode h).entries i) :
    names inode' n i = names inode n i :=
  Finset.sum_congr rfl fun h _ => entries h

namespace Tree

variable {links : Prop} {inode : Inum → Inode} {n : Nat} {extra : Option Inum}

theorem nonzero_of_dir (tree : Tree links inode n extra) {h : Inum}
    (isDir : (inode h).type = .dir) : h ≠ 0 ∧ h < n := by
  have inside := tree.numbered h (by simp [isDir])
  exact ⟨Nat.ne_of_gt inside.1, inside.2⟩

theorem names_pos (tree : Tree links inode n extra) {h i : Inum}
    (isDir : (inode h).type = .dir) (named : (inode h).Names i) :
    0 < names inode n i := by
  have one := (entries_pos_iff named.1).mpr ⟨isDir, named⟩
  have all := entries_le_names inode (tree.nonzero_of_dir isDir).2 i
  omega

/-- With exact counts, a directory with links can be reached. -/
theorem reached_of_nlink (tree : Tree links inode n extra) (exactly : links)
    {dp : Inum} (isDir : (inode dp).type = .dir) (linked : 0 < (inode dp).nlink)
    (settled : extra ≠ some dp) : Reached inode dp := by
  by_cases root : dp = rootino
  · subst root
    exact .root
  · have count := tree.exact exactly dp root (by simp [isDir])
    have none : refers extra dp = 0 := by simp [refers, settled]
    by_cases named : 0 < names inode n dp
    · obtain ⟨h, _, parentDir, entry⟩ :=
        exists_of_names_pos (tree.nonzero_of_dir isDir).1 named
      exact .entry (tree.rooted exactly h dp parentDir entry) parentDir entry
    · have some : 0 < kids inode dp := by omega
      rw [kids, if_pos isDir, List.countP_pos_iff] at some
      obtain ⟨de, member, holds⟩ := some
      simp only [decide_eq_true_eq] at holds
      exact tree.rooted exactly dp de.inum isDir
        ⟨holds.1, de, member, rfl, holds.2.1⟩

/-- The link count of one inode changes. -/
theorem relink (tree : Tree links inode n extra) {i : Inum} {nlink : Nat}
    {extra' : Option Inum}
    (moved : nlink + refers extra i = (inode i).nlink + refers extra' i)
    (others : ∀ j, j ≠ i → refers extra' j = refers extra j) :
    Tree links (Function.update inode i { inode i with nlink := nlink }) n
      extra' := by
  generalize changed : Function.update inode i { inode i with nlink := nlink } = inode'
  have same : ∀ j, (inode' j).type = (inode j).type ∧
      (inode' j).dirents = (inode j).dirents := by
    intro j
    subst changed
    by_cases equal : j = i
    · subst equal
      simp
    · simp [Function.update_of_ne equal]
  have types := fun j => (same j).1
  have dirents := fun j => (same j).2
  have namesSame : ∀ j, names inode' n j = names inode n j := by
    intro j
    apply names_congr
    intro h
    simp only [Inode.entries, types, dirents]
  have kidsSame : ∀ j, kids inode' j = kids inode j :=
    fun j => kids_congr types (dirents j)
  have named : ∀ h j, (inode' h).Names j ↔ (inode h).Names j := by
    intro h j
    simp only [Inode.Names, dirents]
  have parents : ∀ h, (inode' h).parent = (inode h).parent := by
    intro h
    simp only [Inode.parent, dirents]
  have links' : ∀ j, (inode' j).nlink + refers extra j =
      (inode j).nlink + refers extra' j := by
    intro j
    subst changed
    by_cases equal : j = i
    · subst equal
      simpa using moved
    · simp [Function.update_of_ne equal, others j equal]
  refine ⟨?_, ?_, ?_, ?_, ?_, ?_, ?_, ?_, ?_⟩
  · rw [types]
    exact tree.rootDir
  · rw [parents]
    exact tree.rootParent
  · intro j allocated
    exact tree.numbered j (by rwa [types] at allocated)
  · intro h isDir
    rw [types] at isDir
    have formed := tree.formed h isDir
    simpa only [Inode.Formed, dirents] using formed
  · intro h j isDir entry
    rw [types] at isDir
    rw [named] at entry
    rw [types, parents]
    exact tree.target h j isDir entry
  · intro j isDir
    rw [types] at isDir
    rw [namesSame]
    exact tree.single j isDir
  · intro j allocated
    rw [types] at allocated
    have law := tree.law j allocated
    have link := links' j
    rw [namesSame, kidsSame]
    omega
  · intro exactly j nonroot allocated
    rw [types] at allocated
    have law := tree.exact exactly j nonroot allocated
    have link := links' j
    rw [namesSame, kidsSame]
    omega
  · intro exactly h j isDir entry
    rw [types] at isDir
    rw [named] at entry
    apply (tree.rooted exactly h j isDir entry).mono
    intro h' i' isDir' entry'
    rw [types, named]
    exact ⟨isDir', entry'⟩

/-- A directory finds "." and "..". -/
theorem proper_of_absent {node : Inode} {h : Inum} (formed : node.Formed h)
    {name : Name} (absent : dirlookup node name = none) : Proper name := by
  obtain ⟨parent, rest, dirents, nonzero, parentNonzero, _⟩ := formed
  constructor
  · rintro rfl
    simp [dirlookup, dirents, dirlookupFrom, nonzero] at absent
  · rintro rfl
    simp [dirlookup, dirents, dirlookupFrom, parentNonzero] at absent

theorem formed_insert {node : Inode} {h : Inum} (formed : node.Formed h)
    {new : Dirent} (proper : Proper new.name) (links : Nat) :
    (node.insert new links).Formed h ∧
      (node.insert new links).parent = node.parent := by
  obtain ⟨parent, rest, dirents, nonzero, parentNonzero, propers⟩ := formed
  have inserted : (node.insert new links).dirents =
      ⟨h, ['.']⟩ :: ⟨parent, ['.', '.']⟩ :: insertDirent new rest := by
    rw [Inode.insert_dirents, dirents, insertDirent, if_neg nonzero, insertDirent,
      if_neg parentNonzero]
  refine ⟨⟨parent, _, inserted, nonzero, parentNonzero, ?_⟩, ?_⟩
  · intro de member used
    rcases mem_insertDirent member with rfl | old
    · exact proper
    · exact propers de old used
  · rw [Inode.parent, Inode.parent, inserted, dirents]
    rfl

theorem names_insert {node : Inode} {new : Dirent} {links : Nat} {i : Inum}
    (proper : Proper new.name) (nonzero : new.inum ≠ 0) :
    (node.insert new links).Names i ↔ node.Names i ∨ new.inum = i := by
  constructor
  · rintro ⟨used, de, member, rfl, name⟩
    rcases mem_insertDirent member with rfl | old
    · exact Or.inr rfl
    · exact Or.inl ⟨used, de, old, rfl, name⟩
  · rintro (⟨used, de, member, rfl, name⟩ | rfl)
    · exact ⟨used, de, mem_insertDirent_of_mem member used, rfl, name⟩
    · exact ⟨nonzero, new, mem_insertDirent_self _ _, rfl, proper⟩

/-- The slot of an entry other than "." and ".." comes after these. -/
theorem formed_clear {node : Inode} {h : Inum} (formed : node.Formed h)
    {de : Dirent} {off : Nat} (present : node.dirents[off]? = some de)
    (proper : Proper de.name) (links : Nat) :
    (node.clear off links).Formed h ∧
      (node.clear off links).parent = node.parent := by
  obtain ⟨parent, rest, dirents, nonzero, parentNonzero, propers⟩ := formed
  rw [dirents] at present
  match off, present with
  | 0, present =>
      cases present
      exact absurd rfl proper.1
  | 1, present =>
      cases present
      exact absurd rfl proper.2
  | off + 2, present =>
      have cleared : (node.clear (off + 2) links).dirents =
          ⟨h, ['.']⟩ :: ⟨parent, ['.', '.']⟩ :: rest.set off ⟨0, []⟩ := by
        rw [Inode.clear_dirents, dirents]
        rfl
      refine ⟨⟨parent, _, cleared, nonzero, parentNonzero, ?_⟩, ?_⟩
      · intro de member used
        rcases List.mem_or_eq_of_mem_set member with old | rfl
        · exact propers de old used
        · exact absurd rfl used
      · rw [Inode.parent, Inode.parent, cleared, dirents]
        rfl

theorem names_of_clear {node : Inode} {off links : Nat} {i : Inum}
    (named : (node.clear off links).Names i) : node.Names i := by
  obtain ⟨used, de, member, rfl, name⟩ := named
  rcases List.mem_or_eq_of_mem_set member with old | rfl
  · exact ⟨used, de, old, rfl, name⟩
  · exact absurd rfl used

/-- The entries of one directory change. -/
theorem rewrite (tree : Tree links inode n extra) {dp : Inum} {node : Inode}
    {extra' : Option Inum} {inode' : Inum → Inode}
    (changed : inode' = Function.update inode dp node)
    (isDir : (inode dp).type = .dir) (type : node.type = .dir)
    (formed : node.Formed dp) (parent : node.parent = (inode dp).parent)
    (target : ∀ i, node.Names i → (inode dp).Names i ∨
      (inode i).type ≠ .free ∧ i ≠ rootino ∧
        ((inode i).type = .dir → (inode i).parent = some dp))
    (single : ∀ i, (inode i).type = .dir → names inode' n i ≤ 1)
    (counts : ∀ i, (inode i).type ≠ .free →
      names inode' n i + kids inode' i + refers extra' i + (inode i).nlink =
        names inode n i + kids inode i + refers extra i + (inode' i).nlink)
    (rooted : links → ∀ h i, (inode' h).type = .dir → (inode' h).Names i →
      Reached inode' h) :
    Tree links inode' n extra' := by
  have here : inode' dp = node := by rw [changed, Function.update_self]
  have other : ∀ i, i ≠ dp → inode' i = inode i := by
    intro i unlike
    rw [changed, Function.update_of_ne unlike]
  have types : ∀ i, (inode' i).type = (inode i).type := by
    intro i
    by_cases same : i = dp
    · subst same
      rw [here, type, isDir]
    · rw [other i same]
  have parents : ∀ i, (inode' i).parent = (inode i).parent := by
    intro i
    by_cases same : i = dp
    · subst same
      rw [here, parent]
    · rw [other i same]
  refine ⟨?_, ?_, ?_, ?_, ?_, ?_, ?_, ?_, rooted⟩
  · rw [types]
    exact tree.rootDir
  · rw [parents]
    exact tree.rootParent
  · intro i nonfree
    exact tree.numbered i (by rwa [types] at nonfree)
  · intro h dirH
    by_cases same : h = dp
    · subst same
      rwa [here]
    · rw [types] at dirH
      rw [other h same]
      exact tree.formed h dirH
  · intro h i dirH entry
    rw [types] at dirH
    rw [types, parents]
    by_cases same : h = dp
    · subst same
      rw [here] at entry
      rcases target i entry with old | new
      · exact tree.target h i dirH old
      · exact new
    · rw [other h same] at entry
      exact tree.target h i dirH entry
  · intro i dirI
    rw [types] at dirI
    exact single i dirI
  · intro i nonfree
    rw [types] at nonfree
    have law := tree.law i nonfree
    have count := counts i nonfree
    omega
  · intro exactly i unlike nonfree
    rw [types] at nonfree
    have law := tree.exact exactly i unlike nonfree
    have count := counts i nonfree
    omega

theorem types_update (inode : Inum → Inode) (dp : Inum) (node : Inode)
    (type : node.type = (inode dp).type) (i : Inum) :
    (Function.update inode dp node i).type = (inode i).type := by
  by_cases same : i = dp
  · subst same
    rw [Function.update_self, type]
  · rw [Function.update_of_ne same]

theorem kids_insert {ip dp : Inum} {name : Name}
    (isDir : (inode dp).type = .dir) (proper : Proper name) (nonzero : ip ≠ 0)
    (links : Nat) :
    kids (Function.update inode dp ((inode dp).insert ⟨ip, name⟩ links)) dp =
      kids inode dp + (inode ip).dotdots := by
  have types := types_update inode dp ((inode dp).insert ⟨ip, name⟩ links) rfl
  rw [kids, kids, if_pos isDir, if_pos ((types dp).trans isDir),
    Function.update_self, Inode.insert_dirents]
  simp only [types]
  rw [countP_insertDirent]
  · simp [nonzero, proper, Inode.dotdots]
  · intro de free
    simp [free]

theorem kids_clear {dp target : Inum} {name : Name} {off : Nat}
    (isDir : (inode dp).type = .dir)
    (present : (inode dp).dirents[off]? = some ⟨target, name⟩)
    (proper : Proper name) (nonzero : target ≠ 0) (links : Nat) :
    kids (Function.update inode dp ((inode dp).clear off links)) dp +
        (inode target).dotdots = kids inode dp := by
  have types := types_update inode dp ((inode dp).clear off links) rfl
  have cleared := countP_clear
    (p := fun de => decide
      (de.inum ≠ 0 ∧ Proper de.name ∧ (inode de.inum).type = .dir))
    present (by simp)
  rw [kids, kids, if_pos isDir, if_pos ((types dp).trans isDir),
    Function.update_self, Inode.clear_dirents]
  simp only [types]
  simpa [nonzero, proper, Inode.dotdots] using cleared

/-- An inode with a spare link is entered in a directory. -/
theorem insert {ip dp : Inum} {name : Name}
    (tree : Tree links inode n (some ip)) (isDir : (inode dp).type = .dir)
    (absent : dirlookup (inode dp) name = none)
    (allocated : (inode ip).type ≠ .free) (nonroot : ip ≠ rootino)
    (unnamed : (inode ip).type = .dir →
      names inode n ip = 0 ∧ (inode ip).parent = some dp)
    (reached : links → Reached inode dp) :
    Tree links
      (Function.update inode dp
        ((inode dp).insert ⟨ip, name⟩ (inode ip).dotdots)) n none := by
  have formed := tree.formed dp isDir
  have proper := proper_of_absent formed absent
  have nonzero : ip ≠ 0 := Nat.ne_of_gt (tree.numbered ip allocated).1
  have inserted : ((inode dp).insert ⟨ip, name⟩ (inode ip).dotdots).Formed dp ∧ _ :=
    formed_insert formed proper _
  have namesNow : ∀ i, i ≠ 0 →
      names (Function.update inode dp
        ((inode dp).insert ⟨ip, name⟩ (inode ip).dotdots)) n i =
      names inode n i + refers (some ip) i := by
    intro i used
    have update := names_update inode (tree.nonzero_of_dir isDir).2
      ((inode dp).insert ⟨ip, name⟩ (inode ip).dotdots) i
    rw [entries_insert isDir proper used] at update
    omega
  have named : ∀ h i,
      (Function.update inode dp
        ((inode dp).insert ⟨ip, name⟩ (inode ip).dotdots) h).Names i ↔
      (inode h).Names i ∨ (h = dp ∧ ip = i) := by
    intro h i
    by_cases same : h = dp
    · subst same
      rw [Function.update_self, names_insert proper nonzero]
      simp
    · rw [Function.update_of_ne same]
      simp [same]
  have types := types_update inode dp
    ((inode dp).insert ⟨ip, name⟩ (inode ip).dotdots) rfl
  refine tree.rewrite rfl isDir isDir inserted.1 inserted.2 ?_ ?_ ?_ ?_
  · intro i entry
    rcases (names_insert proper nonzero).mp entry with old | rfl
    · exact Or.inl old
    · exact Or.inr ⟨allocated, nonroot, fun dirIp => (unnamed dirIp).2⟩
  · intro i dirI
    rw [namesNow i (tree.nonzero_of_dir dirI).1]
    by_cases same : ip = i
    · subst same
      simp [refers, (unnamed dirI).1]
    · simpa [refers, same] using tree.single i dirI
  · intro i nonfree
    have now := namesNow i (Nat.ne_of_gt (tree.numbered i nonfree).1)
    have noExtra : refers none i = 0 := rfl
    by_cases same : i = dp
    · subst same
      have more := kids_insert isDir proper nonzero (inode ip).dotdots
      rw [Function.update_self, Inode.insert_nlink]
      omega
    · have kidsSame := kids_congr (h := i) types
        (by rw [Function.update_of_ne same])
      rw [kidsSame, Function.update_of_ne same]
      omega
  · intro exactly h i dirH entry
    rw [types] at dirH
    have before : Reached inode h := by
      rcases (named h i).mp entry with old | ⟨rfl, rfl⟩
      · exact tree.rooted exactly h i dirH old
      · exact reached exactly
    apply before.mono
    intro h' i' isDir' entry'
    exact ⟨by rwa [types], (named h' i').mpr (Or.inl entry')⟩

/-- An entry is cleared; its inode has a link to spare. -/
theorem clear {dp target : Inum} {name : Name} {off : Nat}
    (tree : Tree links inode n none) (isDir : (inode dp).type = .dir)
    (present : (inode dp).dirents[off]? = some ⟨target, name⟩)
    (nonzero : target ≠ 0) (proper : Proper name)
    (empty : (inode target).type = .dir → ∀ i, ¬ (inode target).Names i) :
    Tree links
      (Function.update inode dp ((inode dp).clear off (inode target).dotdots)) n
      (some target) := by
  have cleared := formed_clear (tree.formed dp isDir) present proper
    (inode target).dotdots
  have entry : (inode dp).Names target :=
    ⟨nonzero, _, List.mem_of_getElem? present, rfl, proper⟩
  have types := types_update inode dp
    ((inode dp).clear off (inode target).dotdots) rfl
  have namesNow : ∀ i, i ≠ 0 →
      names (Function.update inode dp
        ((inode dp).clear off (inode target).dotdots)) n i +
        refers (some target) i = names inode n i := by
    intro i used
    have update := names_update inode (tree.nonzero_of_dir isDir).2
      ((inode dp).clear off (inode target).dotdots) i
    have entries := entries_clear isDir present proper used
      (inode target).dotdots
    omega
  have fewer : ∀ h i,
      (Function.update inode dp
        ((inode dp).clear off (inode target).dotdots) h).Names i →
      (inode h).Names i := by
    intro h i named
    by_cases same : h = dp
    · subst same
      rw [Function.update_self] at named
      exact names_of_clear named
    · rwa [Function.update_of_ne same] at named
  have kept : ∀ h i, (inode h).type = .dir → (inode h).Names i → i ≠ target →
      (Function.update inode dp
        ((inode dp).clear off (inode target).dotdots) h).Names i := by
    intro h i dirH named unlike
    by_cases same : h = dp
    · subst same
      have before := (entries_pos_iff named.1).mpr ⟨dirH, named⟩
      have entries := entries_clear isDir present proper named.1
        (inode target).dotdots
      simp only [refers, Option.some.injEq, unlike.symm, if_false] at entries
      rw [Function.update_self]
      exact ((entries_pos_iff named.1).mp (by omega)).2
    · rwa [Function.update_of_ne same]
  refine tree.rewrite rfl isDir isDir cleared.1 cleared.2 ?_ ?_ ?_ ?_
  · exact fun i named => Or.inl (names_of_clear named)
  · intro i dirI
    have now := namesNow i (tree.nonzero_of_dir dirI).1
    have single := tree.single i dirI
    omega
  · intro i nonfree
    have now := namesNow i (Nat.ne_of_gt (tree.numbered i nonfree).1)
    have noExtra : refers none i = 0 := rfl
    by_cases same : i = dp
    · subst same
      have less := kids_clear isDir present proper nonzero
        (inode target).dotdots
      have law := tree.law i nonfree
      rw [Function.update_self, Inode.clear_nlink]
      omega
    · have kidsSame := kids_congr (h := i) types
        (by rw [Function.update_of_ne same])
      rw [kidsSame, Function.update_of_ne same]
      omega
  · intro exactly h i dirH named
    rw [types] at dirH
    have before := fewer h i named
    have notTarget : h ≠ target := by
      rintro rfl
      exact empty dirH i before
    have survives : ∀ j, Reached inode j → j ≠ target →
        Reached (Function.update inode dp
          ((inode dp).clear off (inode target).dotdots)) j := by
      intro j reached
      induction reached with
      | root => exact fun _ => .root
      | @entry h' i' _ parentDir parentNames ih =>
          intro unlike
          have parentOther : h' ≠ target := by
            rintro rfl
            exact empty parentDir i' parentNames
          exact .entry (ih parentOther) (by rwa [types])
            (kept h' i' parentDir parentNames unlike)
    exact survives h (tree.rooted exactly h i dirH before) notTarget

/-- A change of type of an inode that nothing names changes no other count of
subdirectories. -/
theorem kids_update {i : Inum} {node : Inode} {h : Inum} (other : h ≠ i)
    (unnamed : (inode h).type = .dir → ¬ (inode h).Names i) :
    kids (Function.update inode i node) h = kids inode h := by
  rw [kids, kids, Function.update_of_ne other]
  split
  next isDir =>
      apply List.countP_congr
      intro de member
      simp only [decide_eq_true_eq]
      have unlike : de.inum ≠ 0 → Proper de.name → de.inum ≠ i := by
        rintro used proper rfl
        exact unnamed isDir ⟨used, de, member, rfl, proper⟩
      constructor
      · rintro ⟨used, proper, type⟩
        rw [Function.update_of_ne (unlike used proper)] at type
        exact ⟨used, proper, type⟩
      · rintro ⟨used, proper, type⟩
        rw [Function.update_of_ne (unlike used proper)]
        exact ⟨used, proper, type⟩
  next => rfl

/-- A free inode becomes a new inode with a link to spare. -/
theorem create {ip dp : Inum} {node : Inode} (tree : Tree links inode n none)
    (free : (inode ip).type = .free) (positive : 0 < ip) (inside : ip < n)
    (nlink : node.nlink = 1)
    (contents : node.type = .dir →
      node.dirents = [⟨ip, ['.']⟩, ⟨dp, ['.', '.']⟩])
    (parentNonzero : dp ≠ 0) :
    Tree links (Function.update inode ip node) n (some ip) := by
  have nonzero : ip ≠ 0 := Nat.ne_of_gt positive
  have notRoot : ip ≠ rootino := by
    rintro rfl
    simp [tree.rootDir] at free
  have unnamed : ∀ h, (inode h).type = .dir → ¬ (inode h).Names ip :=
    fun h isDir named => (tree.target h ip isDir named).1 free
  have noEntries : node.type = .dir → ∀ i, ¬ node.Names i := by
    rintro isDir i ⟨_, de, member, _, proper⟩
    rw [contents isDir] at member
    simp only [List.mem_cons, List.not_mem_nil, or_false] at member
    rcases member with rfl | rfl
    · exact proper.1 rfl
    · exact proper.2 rfl
  have dirOther : ∀ h i, (Function.update inode ip node h).type = .dir →
      (Function.update inode ip node h).Names i →
      h ≠ ip ∧ (inode h).type = .dir ∧ (inode h).Names i := by
    intro h i isDir named
    by_cases same : h = ip
    · subst same
      rw [Function.update_self] at isDir named
      exact absurd named (noEntries isDir i)
    · rw [Function.update_of_ne same] at isDir named
      exact ⟨same, isDir, named⟩
  have namesNow : ∀ i, i ≠ 0 →
      names (Function.update inode ip node) n i = names inode n i := by
    intro i used
    have update := names_update inode inside node i
    rw [entries_eq_zero used (by simp [free]),
      entries_eq_zero used fun isDir => noEntries isDir i] at update
    exact update
  have unnamedCount : names inode n ip = 0 := by
    by_contra positive
    obtain ⟨h, _, isDir, named⟩ :=
      exists_of_names_pos nonzero (Nat.pos_of_ne_zero positive)
    exact unnamed h isDir named
  have kidsNew : kids (Function.update inode ip node) ip = 0 := by
    rw [kids, Function.update_self]
    split
    next isDir => simp [contents isDir, Proper]
    next => rfl
  refine ⟨?_, ?_, ?_, ?_, ?_, ?_, ?_, ?_, ?_⟩
  · rw [Function.update_of_ne notRoot.symm]
    exact tree.rootDir
  · rw [Function.update_of_ne notRoot.symm]
    exact tree.rootParent
  · intro i allocated
    by_cases same : i = ip
    · subst same
      exact ⟨positive, inside⟩
    · rw [Function.update_of_ne same] at allocated
      exact tree.numbered i allocated
  · intro h isDir
    by_cases same : h = ip
    · subst same
      rw [Function.update_self] at isDir ⊢
      exact ⟨dp, [], contents isDir, nonzero, parentNonzero, by simp⟩
    · rw [Function.update_of_ne same] at isDir ⊢
      exact tree.formed h isDir
  · intro h i isDir named
    obtain ⟨_, isDir, named⟩ := dirOther h i isDir named
    have target := tree.target h i isDir named
    have unlike : i ≠ ip := by
      rintro rfl
      exact target.1 free
    rwa [Function.update_of_ne unlike]
  · intro i isDir
    by_cases same : i = ip
    · subst same
      rw [namesNow i nonzero, unnamedCount]
      exact Nat.zero_le 1
    · rw [Function.update_of_ne same] at isDir
      rw [namesNow i (tree.nonzero_of_dir isDir).1]
      exact tree.single i isDir
  · intro i allocated
    by_cases same : i = ip
    · subst same
      rw [namesNow i nonzero, unnamedCount, kidsNew, Function.update_self, nlink]
      simp [refers, notRoot.symm]
    · rw [Function.update_of_ne same] at allocated ⊢
      rw [namesNow i (Nat.ne_of_gt (tree.numbered i allocated).1),
        kids_update same (unnamed i)]
      have law := tree.law i allocated
      have noExtra : refers (some ip) i = 0 := by simp [refers, Ne.symm same]
      omega
  · intro exactly i unlike allocated
    by_cases same : i = ip
    · subst same
      rw [namesNow i nonzero, unnamedCount, kidsNew, Function.update_self, nlink]
      simp [refers]
    · rw [Function.update_of_ne same] at allocated ⊢
      rw [namesNow i (Nat.ne_of_gt (tree.numbered i allocated).1),
        kids_update same (unnamed i)]
      have law := tree.exact exactly i unlike allocated
      have noExtra : refers (some ip) i = 0 := by simp [refers, Ne.symm same]
      have noOld : refers none i = 0 := rfl
      omega
  · intro exactly h i isDir named
    obtain ⟨_, isDir, named⟩ := dirOther h i isDir named
    apply (tree.rooted exactly h i isDir named).mono
    intro h' i' isDir' named'
    have unlike : h' ≠ ip := by
      rintro rfl
      simp [free] at isDir'
    rw [Function.update_of_ne unlike]
    exact ⟨isDir', named'⟩

theorem named_of_reached {i : Inum} (reached : Reached inode i) :
    i = rootino ∨ ∃ h, (inode h).type = .dir ∧ (inode h).Names i := by
  cases reached with
  | root => exact Or.inl rfl
  | entry _ isDir named => exact Or.inr ⟨_, isDir, named⟩

/-- An inode without links is freed. -/
theorem free {i : Inum} (tree : Tree links inode n extra)
    (unlinked : (inode i).nlink = 0) (allocated : (inode i).type ≠ .free) :
    Tree links
      (Function.update inode i { inode i with type := .free, dirents := [] }) n
      extra := by
  have law := tree.law i allocated
  have inside := (tree.numbered i allocated).2
  have notRoot : i ≠ rootino := by
    rintro rfl
    simp [refers] at law
    omega
  have unnamed : ∀ h, (inode h).type = .dir → ¬ (inode h).Names i := by
    intro h isDir named
    have positive := tree.names_pos isDir named
    omega
  have unreached : ¬ Reached inode i := by
    intro reached
    rcases named_of_reached reached with root | ⟨h, isDir, named⟩
    · exact notRoot root
    · exact unnamed h isDir named
  generalize changed :
    Function.update inode i { inode i with type := .free, dirents := [] } = inode'
  have other : ∀ j, j ≠ i → inode' j = inode j := by
    intro j unlike
    rw [← changed, Function.update_of_ne unlike]
  have alive : ∀ j, (inode' j).type ≠ .free → j ≠ i := by
    rintro j nonfree rfl
    simp [← changed] at nonfree
  have namesNow : ∀ j, names inode' n j + (inode i).entries j = names inode n j := by
    intro j
    rw [← changed, names_update inode inside]
    simp [Inode.entries]
  have kidsNow : ∀ j, j ≠ i → kids inode' j = kids inode j := by
    intro j unlike
    rw [← changed]
    exact kids_update unlike (unnamed j)
  refine ⟨?_, ?_, ?_, ?_, ?_, ?_, ?_, ?_, ?_⟩
  · rw [other _ notRoot.symm]
    exact tree.rootDir
  · rw [other _ notRoot.symm]
    exact tree.rootParent
  · intro j nonfree
    have unlike := alive j nonfree
    rw [other j unlike] at nonfree
    exact tree.numbered j nonfree
  · intro h isDir
    have unlike := alive h (by simp [isDir])
    rw [other h unlike] at isDir ⊢
    exact tree.formed h isDir
  · intro h j isDir named
    have unlike := alive h (by simp [isDir])
    rw [other h unlike] at isDir named
    have unlikeJ : j ≠ i := by
      rintro rfl
      exact unnamed h isDir named
    rw [other j unlikeJ]
    exact tree.target h j isDir named
  · intro j isDir
    have unlike := alive j (by simp [isDir])
    rw [other j unlike] at isDir
    have single := tree.single j isDir
    have now := namesNow j
    omega
  · intro j nonfree
    have unlike := alive j nonfree
    rw [other j unlike] at nonfree ⊢
    rw [kidsNow j unlike]
    have lawJ := tree.law j nonfree
    have now := namesNow j
    omega
  · intro exactly j unlikeRoot nonfree
    have unlike := alive j nonfree
    rw [other j unlike] at nonfree ⊢
    rw [kidsNow j unlike]
    have lawJ := tree.exact exactly j unlikeRoot nonfree
    have now := namesNow j
    have noEntries : (inode i).entries j = 0 := by
      apply entries_eq_zero (Nat.ne_of_gt (tree.numbered j nonfree).1)
      intro isDir named
      exact unreached (tree.rooted exactly i j isDir named)
    omega
  · intro exactly h j isDir named
    have unlike := alive h (by simp [isDir])
    rw [other h unlike] at isDir named
    have survives : ∀ k, Reached inode k → Reached inode' k := by
      intro k reached
      induction reached with
      | root => exact .root
      | @entry h' i' before parentDir parentNames ih =>
          have parentOther : h' ≠ i := by
            rintro rfl
            exact unreached before
          apply Reached.entry ih
          · rwa [other h' parentOther]
          · rwa [other h' parentOther]
    exact survives h (tree.rooted exactly h j isDir named)

end Tree

end Xv6.Fs
