import Xv6.LabelledRuns
import Xv6.Counting
import Xv6.FsModel

/-!
# What a process may rely on while it holds inodes

Other processes run between the steps of a call.  A view records what such a
process can still count on: the inodes it has locked and, once filled, their
contents; the references it holds, with the type of the inode where it has
seen it; which of two inodes was allocated first; and the inode to which it
has the only reference.  `Safe` says that the rest of a call respects its
view.  The invariant gives every process a view that is true of the file
system, and each step of a safe call keeps it, whatever the others do.
-/

namespace Xv6.Fs

/-- A name other than "." and "..". -/
def Proper (name : Name) : Prop :=
  name ≠ ['.'] ∧ name ≠ ['.', '.']

instance (name : Name) : Decidable (Proper name) :=
  inferInstanceAs (Decidable (_ ∧ _))

/-- An entry other than "." and ".." names the inode. -/
def Inode.Names (node : Inode) (i : Inum) : Prop :=
  i ≠ 0 ∧ ∃ de ∈ node.dirents, de.inum = i ∧ Proper de.name

theorem names_of_dirlookup {node : Inode} {name : Name} {i slot : Nat}
    (found : dirlookup node name = some (i, slot)) (proper : Proper name) :
    node.Names i := by
  obtain ⟨member, nonzero⟩ := dirlookup_eq_some found
  exact ⟨nonzero, _, List.mem_of_getElem? member, rfl, proper⟩

/-- One when the target is the inode. -/
def refers (target : Option Inum) (i : Inum) : Nat :=
  if target = some i then 1 else 0

/-- References held by current directories and open files. -/
def State.held (s : State) (pids : Finset Pid) (i : Inum) : Nat :=
  ∑ pid ∈ pids, refers (s.cwd pid) i + ∑ f, refers (s.ftable f).ip i

/-- What a process in the middle of a call can count on. -/
structure View where
  locks : List (Inum × Option Inode)
  refs : List (Inum × Option FileType)
  younger : List (Inum × Inum)
  sole : Option Inum

namespace View

def empty : View :=
  ⟨[], [], [], none⟩

/-- The number of references to an inode. -/
def count (v : View) (i : Inum) : Nat :=
  (v.refs.map Prod.fst).count i

/-- The process has a reference and has seen the type. -/
def Typed (v : View) (i : Inum) : Prop :=
  ∃ type, (i, some type) ∈ v.refs

/-- Every locked inode is a directory that names the inode, or an older
one. -/
def Leads (v : View) (i : Inum) : Prop :=
  ∀ entry ∈ v.locks, ∃ node, entry.2 = some node ∧ node.type = .dir ∧
    (node.Names i ∨ (entry.1, i) ∈ v.younger)

/-- An entry that a locked directory may gain. -/
def MayName (v : View) (h : Inum) (de : Dirent) : Prop :=
  de.inum = 0 ∨ ¬ Proper de.name ∨
    (∃ type, type ≠ .dir ∧ (de.inum, some type) ∈ v.refs) ∨
    (h, de.inum) ∈ v.younger

/-- The pairs that an allocation adds. -/
def elders (v : View) (i : Inum) : List (Inum × Inum) :=
  v.refs.filterMap fun ref => ref.2.map fun _ => (ref.1, i)

end View

/-- The rest of a call respects the view. -/
def Safe : Prog → View → Prop
  | .done _, v => v.locks = []
  | .panic _, _ => True
  | .acquire caller i next, v =>
      (caller = .ilock → v.Leads i) ∧
        Safe next { v with locks := (i, none) :: v.locks }
  | .release i next, v =>
      ∃ node locks, v.locks.Perm ((i, node) :: locks) ∧
        Safe next { v with locks := locks, sole := none }
  | .fill i next, v =>
      ∃ old locks type refs, v.locks.Perm ((i, old) :: locks) ∧
        v.refs.Perm ((i, type) :: refs) ∧
        ∀ node, node.type ≠ .free → (∀ seen, type = some seen → node.type = seen) →
          Safe (next node)
            { v with
              locks := (i, some node) :: locks
              refs := (i, some node.type) :: refs }
  | .store i node next, v =>
      ∃ old locks, v.locks.Perm ((i, some old) :: locks) ∧
        node.type = old.type ∧
        (∀ de ∈ node.dirents, de ∈ old.dirents ∨ v.MayName i de) ∧
        Safe next { v with locks := (i, some node) :: locks }
  | .iget i next, v => Safe next { v with refs := (i, none) :: v.refs }
  | .idupCwd next, v => ∀ i, Safe (next i) { v with refs := (i, none) :: v.refs }
  | .ialloc type next, v =>
      type ≠ .free ∧ ∀ i, Safe (next i)
        { v with refs := (i, some type) :: v.refs, younger := v.elders i }
  | .lastRef i next, v =>
      i ∈ v.locks.map Prod.fst ∧ i ∈ v.refs.map Prod.fst ∧ Safe (next false) v ∧
        (v.count i = 1 → Safe (next true) { v with sole := some i })
  | .free i next, v =>
      v.sole = some i ∧ ∃ locks type refs, v.locks.Perm ((i, none) :: locks) ∧
        v.refs.Perm ((i, type) :: refs) ∧ i ∉ refs.map Prod.fst ∧
        Safe next
          { v with refs := (i, none) :: refs, younger := [], sole := none }
  | .unref i next, v =>
      ∃ type refs, v.refs.Perm ((i, type) :: refs) ∧
        Safe next { v with refs := refs, younger := [] }
  | .takeCwd next, v => ∀ i, Safe (next i) { v with refs := (i, none) :: v.refs }
  | .setCwd i next, v =>
      ∃ type refs, v.refs.Perm ((i, type) :: refs) ∧
        Safe next { v with refs := refs, younger := [] }
  | .fileAlloc next, v => ∀ found, Safe (next found) v
  | .fileInstall _ i next, v =>
      ∃ type refs, v.refs.Perm ((i, type) :: refs) ∧
        Safe next { v with refs := refs, younger := [] }
  | .fileDrop _ next, v =>
      Safe (next none) v ∧ Safe (next (some none)) v ∧
        ∀ i, Safe (next (some (some i))) { v with refs := (i, none) :: v.refs }
  | .fork _ next, v => Safe next v

/-! ## The invariant -/

/-- The view is true of the file system. -/
structure View.Ok (v : View) (s : State) (birth : Inum → Nat) : Prop where
  nodup : (v.locks.map Prod.fst).Nodup
  known : ∀ i node, (i, some node) ∈ v.locks →
    s.inode i = node ∧ node.type ≠ .free
  typed : ∀ i type, (i, some type) ∈ v.refs →
    (s.inode i).type = type ∧ type ≠ .free
  younger : ∀ a b, (a, b) ∈ v.younger →
    birth a < birth b ∧ v.Typed a ∧ v.Typed b
  sole : ∀ i, v.sole = some i →
    i ∈ v.locks.map Prod.fst ∧ (s.inode i).type ≠ .free

/-- Subdirectories are younger than the directories that name them. -/
def DirsOrdered (inode : Inum → Inode) (birth : Inum → Nat) : Prop :=
  ∀ h i, (inode h).type = .dir → (inode h).Names i → (inode i).type = .dir →
    birth h < birth i

/-- The views fit together and account for every reference. -/
structure Shared (s : State) (views : Pid → View) (pids : Finset Pid)
    (birth : Inum → Nat) (clock : Nat) : Prop where
  ok : ∀ pid, (views pid).Ok s birth
  owner : ∀ i pid, s.lock i = some pid ↔ i ∈ (views pid).locks.map Prod.fst
  alone : ∀ pid i, (views pid).sole = some i →
    ∀ other, other ≠ pid → ¬ (views other).Typed i
  counted : ∀ i, s.held pids i + ∑ pid ∈ pids, (views pid).count i ≤ s.ref i
  outside : ∀ pid, pid ∉ pids → s.cwd pid = none ∧ views pid = .empty
  born : ∀ i, (s.inode i).type ≠ .free → birth i < clock
  ordered : DirsOrdered s.inode birth

/-- Inodes in the cache are allocated. -/
def State.CacheOk (s : State) : Prop :=
  ∀ i, s.valid i → 0 < s.ref i → (s.inode i).type ≠ .free

/-- Every process in a call has a true view that its call respects. -/
structure Consistent (sys : System) (views : Pid → View) (pids : Finset Pid)
    (birth : Inum → Nat) (clock : Nat) : Prop where
  shared : Shared sys.state views pids birth clock
  safe : ∀ pid prog, sys.prog pid = some prog → Safe prog (views pid)
  idle : ∀ pid, sys.prog pid = none → views pid = .empty
  inside : ∀ pid, (sys.prog pid).isSome → pid ∈ pids
  cached : sys.panicked = none → sys.state.CacheOk

/-! ## References -/

theorem held_setCwd (s : State) {pids : Finset Pid} {pid : Pid}
    (member : pid ∈ pids) (target : Option Inum) (i : Inum) :
    (s.setCwd pid target).held pids i + refers (s.cwd pid) i =
      s.held pids i + refers target i := by
  have changed := Counting.sum_update_add (refers · i) s.cwd member target
  simp only [State.held, State.setCwd] at *
  omega

theorem held_pos_of_cwd {s : State} {pids : Finset Pid} {pid : Pid}
    (member : pid ∈ pids) {i : Inum} (current : s.cwd pid = some i) :
    0 < s.held pids i := by
  have one := Finset.single_le_sum (f := fun p => refers (s.cwd p) i)
    (fun _ _ => Nat.zero_le _) member
  simp only [current, refers, if_true] at one
  simp only [State.held, refers]
  omega

theorem held_setFile (s : State) (pids : Finset Pid) (f : Fin nfile)
    (file : File) (i : Inum) :
    (s.setFile f file).held pids i + refers (s.ftable f).ip i =
      s.held pids i + refers file.ip i := by
  have changed := Counting.sum_update_add
    (fun file : File => refers file.ip i) s.ftable (Finset.mem_univ f) file
  simp only [State.held, State.setFile] at *
  omega

theorem held_forkFiles (s : State) (pids : Finset Pid) (pid : Pid) {child : Pid}
    (unused : s.cwd child = none) (i j : Inum) :
    (s.forkFiles pid child i).held (insert child pids) j =
      s.held pids j + refers (some i) j := by
  have changed := Counting.sum_update_add (refers · j) s.cwd
    (Finset.mem_insert_self child pids) (some i)
  have grown : ∑ p ∈ insert child pids, refers (s.cwd p) j =
      ∑ p ∈ pids, refers (s.cwd p) j := by
    apply Counting.sum_insert_of_zero
    simp [refers, unused]
  have zero : refers (s.cwd child) j = 0 := by
    simp [refers, unused]
  simp only [State.held, State.forkFiles, State.setCwd_cwd, State.setRef_cwd] at *
  omega

theorem count_update (views : Pid → View) {pids : Finset Pid} {pid : Pid}
    (member : pid ∈ pids) (v : View) (i : Inum) :
    ∑ p ∈ pids, (Function.update views pid v p).count i + (views pid).count i =
      ∑ p ∈ pids, (views p).count i + v.count i :=
  Counting.sum_update_add (View.count · i) views member v

namespace View

theorem count_cons {v : View} {i : Inum} {type : Option FileType}
    {refs : List (Inum × Option FileType)}
    (refsEq : v.refs.Perm ((i, type) :: refs)) (j : Inum) :
    v.count j = (refs.map Prod.fst).count j + refers (some i) j := by
  rw [count, (refsEq.map Prod.fst).count_eq, List.map_cons, List.count_cons]
  simp [refers]

theorem count_pos_of_typed {v : View} {i : Inum} (typed : v.Typed i) :
    0 < v.count i := by
  obtain ⟨type, member⟩ := typed
  exact List.count_pos_iff.mpr (List.mem_map_of_mem member)

/-- A view stays true when what it speaks of does not change. -/
theorem Ok.frame {v : View} {s s' : State} {birth birth' : Inum → Nat}
    (ok : v.Ok s birth)
    (known : ∀ i node, (i, some node) ∈ v.locks → s'.inode i = s.inode i)
    (typed : ∀ i, v.Typed i →
      (s'.inode i).type = (s.inode i).type ∧ birth' i = birth i)
    (sole : ∀ i, v.sole = some i → (s'.inode i).type ≠ .free) :
    v.Ok s' birth' where
  nodup := ok.nodup
  known i node member := by
    rw [known i node member]
    exact ok.known i node member
  typed i type member := by
    rw [(typed i ⟨type, member⟩).1]
    exact ok.typed i type member
  younger a b member := by
    obtain ⟨less, typedA, typedB⟩ := ok.younger a b member
    rw [(typed a typedA).2, (typed b typedB).2]
    exact ⟨less, typedA, typedB⟩
  sole i only := ⟨(ok.sole i only).1, sole i only⟩

end View

section Steps

variable {s : State} {views : Pid → View} {pids : Finset Pid}
  {birth : Inum → Nat} {clock : Nat} {pid : Pid}

theorem iget_ref {s' : State} {i : Inum} (got : s.iget i = some s') (j : Inum) :
    s'.ref j = s.ref j + refers (some i) j := by
  unfold State.iget at got
  split at got
  · cases got
    by_cases same : j = i
    · subst same
      simp [refers]
    · simp [refers, Function.update_of_ne same, Ne.symm same]
  · split at got
    · cases got
    · cases got
      by_cases same : j = i
      · subst same
        simp [refers]
        omega
      · simp [refers, Function.update_of_ne same, Ne.symm same]

theorem iget_same {s' : State} {i : Inum} (got : s.iget i = some s') :
    s'.inode = s.inode ∧ s'.lock = s.lock ∧ s'.cwd = s.cwd ∧
      s'.ftable = s.ftable ∧ s'.ninodes = s.ninodes ∧ s'.ofile = s.ofile := by
  unfold State.iget at got
  split at got
  · cases got
    simp
  · split at got
    · cases got
    · cases got
      simp

namespace Shared

/-- Two references to one inode are counted twice. -/
theorem two_le_ref (shared : Shared s views pids birth clock)
    (inside : pid ∈ pids) {other : Pid} (distinct : other ≠ pid) {i : Inum}
    (mine : 0 < (views pid).count i) (typed : (views other).Typed i) :
    2 ≤ s.ref i := by
  have otherInside : other ∈ pids := by
    by_contra absent
    obtain ⟨type, member⟩ := typed
    simp [(shared.outside other absent).2, View.empty] at member
  have theirs := View.count_pos_of_typed typed
  have total := shared.counted i
  have pair := Finset.sum_pair (f := fun p => (views p).count i) distinct.symm
  have both : ∑ p ∈ {pid, other}, (views p).count i ≤
      ∑ p ∈ pids, (views p).count i := by
    apply Finset.sum_le_sum_of_subset
    intro p member
    rcases Finset.mem_insert.mp member with rfl | member
    · exact inside
    · rwa [Finset.mem_singleton.mp member]
  omega

theorem count_le_ref (shared : Shared s views pids birth clock)
    (inside : pid ∈ pids) (i : Inum) : (views pid).count i ≤ s.ref i := by
  have total := shared.counted i
  have one := Finset.single_le_sum (f := fun p => (views p).count i)
    (fun _ _ => Nat.zero_le _) inside
  omega

/-- One process takes a step; the others keep their views. -/
theorem update (shared : Shared s views pids birth clock) {s' : State}
    {pids' : Finset Pid} {birth' : Inum → Nat} {clock' : Nat} {v : View}
    (others : ∀ p, p ≠ pid → (views p).Ok s' birth') (mine : v.Ok s' birth')
    (owner : ∀ i p, s'.lock i = some p ↔
      i ∈ (Function.update views pid v p).locks.map Prod.fst)
    (sole : ∀ i, v.sole = some i → ∀ p, p ≠ pid → ¬ (views p).Typed i)
    (typed : ∀ i, v.Typed i → (views pid).Typed i ∨
      ∀ p, p ≠ pid → (views p).sole ≠ some i)
    (counted : ∀ i, s'.held pids' i +
      ∑ p ∈ pids', (Function.update views pid v p).count i ≤ s'.ref i)
    (outside : ∀ p, p ∉ pids' → s'.cwd p = none ∧ p ≠ pid ∧ p ∉ pids)
    (born : ∀ i, (s'.inode i).type ≠ .free → birth' i < clock')
    (ordered : DirsOrdered s'.inode birth') :
    Shared s' (Function.update views pid v) pids' birth' clock' where
  ok p := by
    by_cases same : p = pid
    · subst same
      rwa [Function.update_self]
    · rw [Function.update_of_ne same]
      exact others p same
  owner := owner
  alone p i only other distinct := by
    by_cases same : p = pid
    · subst same
      rw [Function.update_self] at only
      rw [Function.update_of_ne distinct]
      exact sole i only other distinct
    · rw [Function.update_of_ne same] at only
      by_cases mineToo : other = pid
      · subst mineToo
        rw [Function.update_self]
        intro now
        rcases typed i now with before | free
        · exact shared.alone p i only other distinct before
        · exact free p same only
      · rw [Function.update_of_ne mineToo]
        exact shared.alone p i only other distinct
  counted := counted
  outside p absent := by
    obtain ⟨cwd, distinct, absentBefore⟩ := outside p absent
    rw [Function.update_of_ne distinct]
    exact ⟨cwd, (shared.outside p absentBefore).2⟩
  born := born
  ordered := ordered

/-- A step that changes no inode. -/
theorem of_same_inodes (shared : Shared s views pids birth clock) {s' : State}
    {pids' : Finset Pid} {v : View} (inode : s'.inode = s.inode)
    (mine : v.Ok s birth)
    (owner : ∀ i p, s'.lock i = some p ↔
      i ∈ (Function.update views pid v p).locks.map Prod.fst)
    (sole : ∀ i, v.sole = some i → ∀ p, p ≠ pid → ¬ (views p).Typed i)
    (typed : ∀ i, v.Typed i → (views pid).Typed i ∨
      ∀ p, p ≠ pid → (views p).sole ≠ some i)
    (counted : ∀ i, s'.held pids' i +
      ∑ p ∈ pids', (Function.update views pid v p).count i ≤ s'.ref i)
    (outside : ∀ p, p ∉ pids' → s'.cwd p = none ∧ p ≠ pid ∧ p ∉ pids) :
    Shared s' (Function.update views pid v) pids' birth clock := by
  have frame : ∀ {v : View}, v.Ok s birth → v.Ok s' birth := by
    intro v ok
    apply ok.frame
    · intro i node _
      rw [inode]
    · intro i _
      rw [inode]
      exact ⟨rfl, rfl⟩
    · intro i only
      rw [inode]
      exact (ok.sole i only).2
  apply shared.update (fun p _ => frame (shared.ok p)) (frame mine) owner sole
    typed counted outside
  · rw [inode]
    exact shared.born
  · rw [inode]
    exact shared.ordered

/-- The locks stay with their owners when a view keeps its locks. -/
theorem owner_update (shared : Shared s views pids birth clock) {s' : State}
    {v : View} (lock : s'.lock = s.lock)
    (locks : v.locks = (views pid).locks) (i : Inum) (p : Pid) :
    s'.lock i = some p ↔
      i ∈ (Function.update views pid v p).locks.map Prod.fst := by
  rw [lock, shared.owner]
  by_cases same : p = pid
  · subst same
    rw [Function.update_self, locks]
  · rw [Function.update_of_ne same]

/-- A step that changes references only. -/
theorem of_refs (shared : Shared s views pids birth clock) {s' : State}
    {pids' : Finset Pid} {v : View}
    (inode : s'.inode = s.inode) (lock : s'.lock = s.lock)
    (locks : v.locks = (views pid).locks) (sole : v.sole = (views pid).sole)
    (typed : ∀ i type, (i, some type) ∈ v.refs → (i, some type) ∈ (views pid).refs)
    (younger : ∀ a b, (a, b) ∈ v.younger →
      (a, b) ∈ (views pid).younger ∧ v.Typed a ∧ v.Typed b)
    (counted : ∀ i, s'.held pids' i +
      ∑ p ∈ pids', (Function.update views pid v p).count i ≤ s'.ref i)
    (outside : ∀ p, p ∉ pids' → s'.cwd p = none ∧ p ≠ pid ∧ p ∉ pids) :
    Shared s' (Function.update views pid v) pids' birth clock := by
  have old := shared.ok pid
  apply shared.of_same_inodes inode _ (shared.owner_update lock locks) _ _
    counted outside
  · refine ⟨locks ▸ old.nodup, locks ▸ old.known, ?_, ?_, ?_⟩
    · intro i type member
      exact old.typed i type (typed i type member)
    · intro a b member
      have ⟨before, typedBoth⟩ := younger a b member
      exact ⟨(old.younger a b before).1, typedBoth⟩
    · rw [locks, sole]
      exact old.sole
  · rw [sole]
    exact shared.alone pid
  · rintro i ⟨type, member⟩
    exact Or.inl ⟨type, typed i type member⟩

/-- The process gains a reference. -/
theorem gain (shared : Shared s views pids birth clock) (inside : pid ∈ pids)
    {s' : State} {i : Inum} (inode : s'.inode = s.inode)
    (lock : s'.lock = s.lock)
    (moved : ∀ j, s'.held pids j + refers (some i) j + s.ref j ≤
      s.held pids j + s'.ref j)
    (cwd : ∀ p, p ∉ pids → s'.cwd p = none) :
    Shared s'
      (Function.update views pid
        { views pid with refs := (i, none) :: (views pid).refs })
      pids birth clock := by
  refine shared.of_refs inode lock rfl rfl ?_ ?_ ?_ ?_
  · intro j type member
    simpa using member
  · intro a b member
    obtain ⟨_, ⟨typeA, memberA⟩, typeB, memberB⟩ :=
      (shared.ok pid).younger a b member
    exact ⟨member, ⟨typeA, List.mem_cons_of_mem _ memberA⟩,
      typeB, List.mem_cons_of_mem _ memberB⟩
  · intro j
    have now := count_update views inside
      { views pid with refs := (i, none) :: (views pid).refs } j
    have plus : View.count { views pid with refs := (i, none) :: (views pid).refs } j =
        (views pid).count j + refers (some i) j :=
      View.count_cons (List.Perm.refl _) j
    have before := shared.counted j
    have shift := moved j
    omega
  · intro p absent
    refine ⟨cwd p absent, ?_, absent⟩
    rintro rfl
    exact absent inside

/-- The process gives up a reference. -/
theorem drop (shared : Shared s views pids birth clock) (inside : pid ∈ pids)
    {s' : State} {i : Inum} {type : Option FileType}
    {refs : List (Inum × Option FileType)}
    (refsEq : (views pid).refs.Perm ((i, type) :: refs))
    (inode : s'.inode = s.inode) (lock : s'.lock = s.lock)
    (moved : ∀ j, s'.held pids j + s.ref j ≤
      s.held pids j + refers (some i) j + s'.ref j)
    (cwd : ∀ p, p ∉ pids → s'.cwd p = none) :
    Shared s'
      (Function.update views pid { views pid with refs := refs, younger := [] })
      pids birth clock := by
  refine shared.of_refs inode lock rfl rfl ?_ ?_ ?_ ?_
  · intro j seen member
    exact refsEq.mem_iff.mpr (List.mem_cons_of_mem _ member)
  · intro a b member
    simp at member
  · intro j
    have now := count_update views inside
      { views pid with refs := refs, younger := [] } j
    rw [View.count_cons refsEq] at now
    have before := shared.counted j
    have shift := moved j
    simp only [View.count] at *
    omega
  · intro p absent
    refine ⟨cwd p absent, ?_, absent⟩
    rintro rfl
    exact absent inside

/-- References move between current directories and open files. -/
theorem keep (shared : Shared s views pids birth clock) {s' : State}
    {pids' : Finset Pid} (inode : s'.inode = s.inode)
    (lock : s'.lock = s.lock) (larger : pids ⊆ pids')
    (moved : ∀ j, s'.held pids' j + s.ref j ≤ s.held pids j + s'.ref j)
    (cwd : ∀ p, p ∉ pids' → s'.cwd p = none) :
    Shared s' views pids' birth clock where
  ok p := by
    apply (shared.ok p).frame
    · intro i node _
      rw [inode]
    · intro i _
      rw [inode]
      exact ⟨rfl, rfl⟩
    · intro i only
      rw [inode]
      exact ((shared.ok p).sole i only).2
  owner := by
    rw [lock]
    exact shared.owner
  alone := shared.alone
  counted j := by
    have same : ∑ p ∈ pids, (views p).count j = ∑ p ∈ pids', (views p).count j := by
      apply Finset.sum_subset larger
      intro p _ absent
      rw [(shared.outside p absent).2]
      rfl
    have before := shared.counted j
    have shift := moved j
    omega
  outside p absent :=
    ⟨cwd p absent, (shared.outside p fun member => absent (larger member)).2⟩
  born := by
    rw [inode]
    exact shared.born
  ordered := by
    rw [inode]
    exact shared.ordered

/-- The counts when the references of one view keep their inodes. -/
theorem counted_update (shared : Shared s views pids birth clock)
    (inside : pid ∈ pids) {v : View} {s' : State}
    (count : ∀ i, v.count i = (views pid).count i)
    (held : ∀ i, s'.held pids i = s.held pids i)
    (ref : s'.ref = s.ref) (i : Inum) :
    s'.held pids i + ∑ p ∈ pids, (Function.update views pid v p).count i ≤
      s'.ref i := by
  have now := count_update views inside v i
  have before := shared.counted i
  rw [count] at now
  rw [held, ref]
  omega

theorem outside_same (shared : Shared s views pids birth clock)
    (inside : pid ∈ pids) (p : Pid) (absent : p ∉ pids) :
    s.cwd p = none ∧ p ≠ pid ∧ p ∉ pids := by
  refine ⟨(shared.outside p absent).1, ?_, absent⟩
  rintro rfl
  exact absent inside

theorem acquire (shared : Shared s views pids birth clock) (inside : pid ∈ pids)
    {i : Inum} (unowned : s.lock i = none) :
    Shared (s.setLock i (some pid))
      (Function.update views pid
        { views pid with locks := (i, none) :: (views pid).locks })
      pids birth clock := by
  have old := shared.ok pid
  have fresh : ∀ p, i ∉ (views p).locks.map Prod.fst := by
    intro p member
    have owned := (shared.owner i p).mpr member
    simp [unowned] at owned
  refine shared.of_same_inodes rfl ?_ ?_ ?_ ?_ ?_ ?_
  · refine ⟨?_, ?_, old.typed, old.younger, ?_⟩
    · exact List.nodup_cons.mpr ⟨fresh pid, old.nodup⟩
    · intro j node member
      exact old.known j node (by simpa using member)
    · intro j only
      exact ⟨List.mem_cons_of_mem _ (old.sole j only).1, (old.sole j only).2⟩
  · intro j p
    rw [State.setLock_lock]
    by_cases sameLock : j = i
    · subst sameLock
      rw [Function.update_self, Option.some.injEq]
      by_cases same : p = pid
      · subst same
        simp
      · rw [Function.update_of_ne same]
        exact ⟨fun eq => absurd eq.symm same, fun member => absurd member (fresh p)⟩
    · rw [Function.update_of_ne sameLock, shared.owner]
      by_cases same : p = pid
      · subst same
        simp [sameLock]
      · rw [Function.update_of_ne same]
  · exact shared.alone pid
  · exact fun j typed => Or.inl typed
  · exact shared.counted_update inside (fun _ => rfl) (fun _ => rfl) rfl
  · exact shared.outside_same inside

theorem release (shared : Shared s views pids birth clock) (inside : pid ∈ pids)
    {i : Inum} {node : Option Inode} {locks : List (Inum × Option Inode)}
    (locksEq : (views pid).locks.Perm ((i, node) :: locks)) :
    Shared (s.setLock i none)
      (Function.update views pid
        { views pid with locks := locks, sole := none })
      pids birth clock := by
  have old := shared.ok pid
  have nodup : (i :: locks.map Prod.fst).Nodup :=
    (locksEq.map Prod.fst).nodup_iff.mp old.nodup
  have keys : ∀ j, j ∈ (views pid).locks.map Prod.fst ↔
      j = i ∨ j ∈ locks.map Prod.fst := by
    intro j
    rw [(locksEq.map Prod.fst).mem_iff]
    exact List.mem_cons
  refine shared.of_same_inodes rfl ?_ ?_ ?_ ?_ ?_ ?_
  · refine ⟨nodup.of_cons, ?_, old.typed, old.younger, fun _ only => ?_⟩
    · intro j known member
      exact old.known j known (locksEq.mem_iff.mpr (List.mem_cons_of_mem _ member))
    · simp at only
  · intro j p
    rw [State.setLock_lock]
    by_cases sameLock : j = i
    · subst sameLock
      rw [Function.update_self]
      by_cases same : p = pid
      · subst same
        simpa using (List.nodup_cons.mp nodup).1
      · rw [Function.update_of_ne same, ← shared.owner]
        have owned := (shared.owner j pid).mpr ((keys j).mpr (Or.inl rfl))
        rw [owned, Option.some.injEq]
        exact ⟨fun eq => by simp at eq, fun eq => absurd eq.symm same⟩
    · rw [Function.update_of_ne sameLock, shared.owner]
      by_cases same : p = pid
      · subst same
        rw [Function.update_self, keys]
        simp [sameLock]
      · rw [Function.update_of_ne same]
  · intro j only
    simp at only
  · exact fun j typed => Or.inl typed
  · exact shared.counted_update inside (fun _ => rfl) (fun _ => rfl) rfl
  · exact shared.outside_same inside

/-- Nobody else has locked what the process has locked. -/
theorem ne_of_locked (shared : Shared s views pids birth clock) {i j : Inum}
    (mine : i ∈ (views pid).locks.map Prod.fst) {p : Pid} (distinct : p ≠ pid)
    (theirs : j ∈ (views p).locks.map Prod.fst) : j ≠ i := by
  rintro rfl
  have first := (shared.owner j pid).mpr mine
  have second := (shared.owner j p).mpr theirs
  exact distinct (Option.some.inj (second.symm.trans first))

theorem fill (shared : Shared s views pids birth clock) (inside : pid ∈ pids)
    {i : Inum} {old : Option Inode} {locks : List (Inum × Option Inode)}
    {type : Option FileType} {refs : List (Inum × Option FileType)}
    (locksEq : (views pid).locks.Perm ((i, old) :: locks))
    (refsEq : (views pid).refs.Perm ((i, type) :: refs))
    (allocated : (s.inode i).type ≠ .free) :
    Shared s
      (Function.update views pid
        { views pid with
          locks := (i, some (s.inode i)) :: locks
          refs := (i, some (s.inode i).type) :: refs })
      pids birth clock := by
  have before := shared.ok pid
  have keys : ∀ j, j ∈ (views pid).locks.map Prod.fst ↔
      j = i ∨ j ∈ locks.map Prod.fst := by
    intro j
    rw [(locksEq.map Prod.fst).mem_iff]
    exact List.mem_cons
  have typed : ∀ {v : View}, v.refs = (i, some (s.inode i).type) :: refs →
      ∀ j, (views pid).Typed j → v.Typed j := by
    rintro v refsAre j ⟨seen, member⟩
    rw [View.Typed, refsAre]
    rcases List.mem_cons.mp (refsEq.mem_iff.mp member) with equal | member
    · cases equal
      exact ⟨_, List.mem_cons_self⟩
    · exact ⟨seen, List.mem_cons_of_mem _ member⟩
  refine shared.of_same_inodes rfl ?_ ?_ ?_ ?_ ?_ ?_
  · refine ⟨?_, ?_, ?_, ?_, ?_⟩
    · exact (locksEq.map Prod.fst).nodup_iff.mp before.nodup
    · intro j node member
      rcases List.mem_cons.mp member with equal | member
      · cases equal
        exact ⟨rfl, allocated⟩
      · exact before.known j node
          (locksEq.mem_iff.mpr (List.mem_cons_of_mem _ member))
    · intro j seen member
      rcases List.mem_cons.mp member with equal | member
      · cases equal
        exact ⟨rfl, allocated⟩
      · exact before.typed j seen
          (refsEq.mem_iff.mpr (List.mem_cons_of_mem _ member))
    · intro a b member
      obtain ⟨less, typedA, typedB⟩ := before.younger a b member
      exact ⟨less, typed rfl a typedA, typed rfl b typedB⟩
    · intro j only
      refine ⟨?_, (before.sole j only).2⟩
      have locked := (keys j).mp (before.sole j only).1
      simpa using locked
  · intro j p
    rw [shared.owner]
    by_cases same : p = pid
    · subst same
      rw [Function.update_self, keys]
      simp
    · rw [Function.update_of_ne same]
  · exact shared.alone pid
  · rintro j ⟨seen, member⟩
    rcases List.mem_cons.mp member with equal | member
    · cases equal
      refine Or.inr fun p distinct only => ?_
      have locked := ((shared.ok p).sole i only).1
      exact shared.ne_of_locked ((keys i).mpr (Or.inl rfl)) distinct locked rfl
    · exact Or.inl
        ⟨seen, refsEq.mem_iff.mpr (List.mem_cons_of_mem _ member)⟩
  · apply shared.counted_update inside _ (fun _ => rfl) rfl
    intro j
    rw [View.count_cons refsEq]
    exact View.count_cons (List.Perm.refl _) j
  · exact shared.outside_same inside

/-- The process finds that it has the only reference. -/
theorem lastRef (shared : Shared s views pids birth clock) (inside : pid ∈ pids)
    {i : Inum} (locked : i ∈ (views pid).locks.map Prod.fst)
    (mine : i ∈ (views pid).refs.map Prod.fst)
    (allocated : (s.inode i).type ≠ .free) (only : s.ref i = 1) :
    Shared s (Function.update views pid { views pid with sole := some i })
      pids birth clock := by
  have before := shared.ok pid
  refine shared.of_same_inodes rfl ?_ ?_ ?_ ?_ ?_ ?_
  · refine ⟨before.nodup, before.known, before.typed, before.younger, ?_⟩
    rintro j equal
    cases equal
    exact ⟨locked, allocated⟩
  · exact shared.owner_update rfl rfl
  · rintro j equal p distinct typed
    cases equal
    have both := shared.two_le_ref inside distinct (List.count_pos_iff.mpr mine) typed
    omega
  · exact fun j typed => Or.inl typed
  · exact shared.counted_update inside (fun _ => rfl) (fun _ => rfl) rfl
  · exact shared.outside_same inside

/-- A change to a locked inode that keeps its type. -/
theorem store (shared : Shared s views pids birth clock) (inside : pid ∈ pids)
    {i : Inum} {node old : Inode} {locks : List (Inum × Option Inode)}
    (locksEq : (views pid).locks.Perm ((i, some old) :: locks))
    (type : node.type = old.type)
    (entries : ∀ de ∈ node.dirents,
      de ∈ old.dirents ∨ (views pid).MayName i de) :
    Shared (s.setInode i node)
      (Function.update views pid
        { views pid with locks := (i, some node) :: locks })
      pids birth clock := by
  have before := shared.ok pid
  have keys : ∀ j, j ∈ (views pid).locks.map Prod.fst ↔
      j = i ∨ j ∈ locks.map Prod.fst := by
    intro j
    rw [(locksEq.map Prod.fst).mem_iff]
    exact List.mem_cons
  have nodup : (i :: locks.map Prod.fst).Nodup :=
    (locksEq.map Prod.fst).nodup_iff.mp before.nodup
  have locked := (keys i).mpr (Or.inl rfl)
  obtain ⟨contents, allocated⟩ :=
    before.known i old (locksEq.mem_iff.mpr List.mem_cons_self)
  have types : ∀ j, ((s.setInode i node).inode j).type = (s.inode j).type := by
    intro j
    rw [State.setInode_inode]
    by_cases same : j = i
    · subst same
      rw [Function.update_self, type, contents]
    · rw [Function.update_of_ne same]
  apply shared.update
  · intro p distinct
    apply (shared.ok p).frame
    · intro j known member
      have other := shared.ne_of_locked locked distinct (List.mem_map_of_mem member)
      rw [State.setInode_inode, Function.update_of_ne other]
    · intro j _
      exact ⟨types j, rfl⟩
    · intro j only
      rw [types]
      exact ((shared.ok p).sole j only).2
  · refine ⟨nodup, ?_, ?_, before.younger, ?_⟩
    · intro j known member
      rw [State.setInode_inode]
      rcases List.mem_cons.mp member with equal | rest
      · cases equal
        rw [Function.update_self]
        exact ⟨rfl, type ▸ allocated⟩
      · have other : j ≠ i := by
          rintro rfl
          exact (List.nodup_cons.mp nodup).1 (List.mem_map_of_mem rest)
        rw [Function.update_of_ne other]
        exact before.known j known
          (locksEq.mem_iff.mpr (List.mem_cons_of_mem _ rest))
    · intro j seen member
      rw [types]
      exact before.typed j seen member
    · intro j only
      rw [types]
      refine ⟨?_, (before.sole j only).2⟩
      have mine := (keys j).mp (before.sole j only).1
      simpa using mine
  · intro j p
    rw [State.setInode_lock, shared.owner]
    by_cases same : p = pid
    · subst same
      rw [Function.update_self, keys]
      simp
    · rw [Function.update_of_ne same]
  · exact shared.alone pid
  · exact fun j typed => Or.inl typed
  · exact shared.counted_update inside (fun _ => rfl) (fun _ => rfl) rfl
  · exact shared.outside_same inside
  · intro j nonfree
    exact shared.born j (by rwa [types] at nonfree)
  · intro h j dirH names dirJ
    rw [types] at dirH dirJ
    rw [State.setInode_inode] at names
    by_cases same : h = i
    · subst same
      rw [Function.update_self] at names
      obtain ⟨nonzero, de, member, rfl, proper⟩ := names
      rcases entries de member with
        present | zero | dots | ⟨seen, notDir, ref⟩ | younger
      · apply shared.ordered h de.inum dirH _ dirJ
        rw [contents]
        exact ⟨nonzero, de, present, rfl, proper⟩
      · exact absurd zero nonzero
      · exact absurd proper dots
      · exact absurd ((before.typed _ _ ref).1.symm.trans dirJ) notDir
      · exact (before.younger _ _ younger).1
    · rw [Function.update_of_ne same] at names
      exact shared.ordered h j dirH names dirJ

/-- A free inode is allocated; it is the youngest. -/
theorem allocate (shared : Shared s views pids birth clock) {i : Inum}
    (type : FileType) (free : (s.inode i).type = .free) :
    Shared (s.setInode i (State.newInode type)) views pids
      (Function.update birth i clock) (clock + 1) := by
  have other : ∀ j, (s.inode j).type ≠ .free →
      (s.setInode i (State.newInode type)).inode j = s.inode j ∧
        Function.update birth i clock j = birth j := by
    intro j allocated
    have distinct : j ≠ i := by
      rintro rfl
      exact allocated free
    rw [State.setInode_inode, Function.update_of_ne distinct,
      Function.update_of_ne distinct]
    exact ⟨rfl, rfl⟩
  refine ⟨?_, shared.owner, shared.alone, shared.counted, shared.outside, ?_, ?_⟩
  · intro p
    apply (shared.ok p).frame
    · intro j node member
      obtain ⟨contents, allocated⟩ := (shared.ok p).known j node member
      exact (other j (contents ▸ allocated)).1
    · rintro j ⟨seen, member⟩
      obtain ⟨same, allocated⟩ := (shared.ok p).typed j seen member
      have unchanged := other j (same ▸ allocated)
      exact ⟨by rw [unchanged.1], unchanged.2⟩
    · intro j only
      have allocated := ((shared.ok p).sole j only).2
      rw [(other j allocated).1]
      exact allocated
  · intro j allocated
    by_cases same : j = i
    · subst same
      rw [Function.update_self]
      exact Nat.lt_succ_self clock
    · rw [State.setInode_inode, Function.update_of_ne same] at allocated
      rw [Function.update_of_ne same]
      exact Nat.lt_succ_of_lt (shared.born j allocated)
  · intro h j dirH names dirJ
    rw [State.setInode_inode] at dirH names dirJ
    have distinct : h ≠ i := by
      rintro rfl
      rw [Function.update_self] at names
      obtain ⟨_, de, member, _⟩ := names
      simp [State.newInode] at member
    rw [Function.update_of_ne distinct] at dirH names ⊢
    by_cases same : j = i
    · subst same
      rw [Function.update_self]
      exact shared.born h (by simp [dirH])
    · rw [Function.update_of_ne same] at dirJ ⊢
      exact shared.ordered h j dirH names dirJ

/-- The process that allocated an inode gets a reference to it. -/
theorem gain_allocated (shared : Shared s views pids birth clock)
    (inside : pid ∈ pids) {s' : State} {i : Inum} {type : FileType}
    (nonfree : type ≠ .free) (typeEq : (s.inode i).type = type)
    (unowned : ∀ p, (views p).sole ≠ some i)
    (elder : ∀ j, (views pid).Typed j → birth j < birth i)
    (got : s.iget i = some s') :
    Shared s'
      (Function.update views pid
        { views pid with
          refs := (i, some type) :: (views pid).refs
          younger := (views pid).elders i })
      pids birth clock := by
  have before := shared.ok pid
  obtain ⟨inode, lock, cwd, ftable, -, -⟩ := iget_same got
  refine shared.of_same_inodes inode ?_ (shared.owner_update lock rfl)
    (shared.alone pid) ?_ ?_ ?_
  · refine ⟨before.nodup, before.known, ?_, ?_, before.sole⟩
    · intro j seen member
      rcases List.mem_cons.mp member with equal | rest
      · cases equal
        exact ⟨typeEq, nonfree⟩
      · exact before.typed j seen rest
    · intro a b member
      obtain ⟨⟨first, seen⟩, present, image⟩ := List.mem_filterMap.mp member
      cases seen with
      | none => simp at image
      | some seen =>
          cases image
          exact ⟨elder first ⟨seen, present⟩,
            ⟨seen, List.mem_cons_of_mem _ present⟩, type, List.mem_cons_self⟩
  · rintro j ⟨seen, member⟩
    rcases List.mem_cons.mp member with equal | rest
    · cases equal
      exact Or.inr fun p _ => unowned p
    · exact Or.inl ⟨seen, rest⟩
  · intro j
    have now := count_update views inside
      { views pid with
        refs := (i, some type) :: (views pid).refs
        younger := (views pid).elders i } j
    have plus : View.count
        { views pid with
          refs := (i, some type) :: (views pid).refs
          younger := (views pid).elders i } j =
        (views pid).count j + refers (some i) j :=
      View.count_cons (List.Perm.refl _) j
    have total := shared.counted j
    have ref := iget_ref got j
    have held : s'.held pids j = s.held pids j := by
      simp only [State.held, cwd, ftable]
    omega
  · rw [cwd]
    exact shared.outside_same inside

/-- The only holder of an inode frees it. -/
theorem free (shared : Shared s views pids birth clock) (inside : pid ∈ pids)
    {i : Inum} {locks : List (Inum × Option Inode)} {type : Option FileType}
    {refs : List (Inum × Option FileType)}
    (only : (views pid).sole = some i)
    (locksEq : (views pid).locks.Perm ((i, none) :: locks))
    (refsEq : (views pid).refs.Perm ((i, type) :: refs))
    (last : i ∉ refs.map Prod.fst) :
    Shared (s.freeInode i)
      (Function.update views pid
        { views pid with
          refs := (i, none) :: refs
          younger := []
          sole := none })
      pids birth clock := by
  have before := shared.ok pid
  have locked := (before.sole i only).1
  have nodup : (i :: locks.map Prod.fst).Nodup :=
    (locksEq.map Prod.fst).nodup_iff.mp before.nodup
  have other : ∀ j, j ≠ i → (s.freeInode i).inode j = s.inode j := by
    intro j distinct
    simp [State.freeInode, Function.update_of_ne distinct]
  have freed : ((s.freeInode i).inode i).type = .free := by
    simp [State.freeInode]
  have notFreed : ∀ j, ((s.freeInode i).inode j).type ≠ .free → j ≠ i := by
    rintro j allocated rfl
    exact allocated freed
  apply shared.update
  · intro p distinct
    apply (shared.ok p).frame
    · intro j node member
      exact other j
        (shared.ne_of_locked locked distinct (List.mem_map_of_mem member))
    · intro j typed
      have unlike : j ≠ i := by
        rintro rfl
        exact shared.alone pid j only p distinct typed
      rw [other j unlike]
      exact ⟨rfl, rfl⟩
    · intro j sole
      obtain ⟨theirs, allocated⟩ := (shared.ok p).sole j sole
      rw [other j (shared.ne_of_locked locked distinct theirs)]
      exact allocated
  · refine ⟨before.nodup, ?_, ?_, ?_, ?_⟩
    · intro j node member
      have unlike : j ≠ i := by
        rintro rfl
        rcases List.mem_cons.mp (locksEq.mem_iff.mp member) with equal | rest
        · simp at equal
        · exact (List.nodup_cons.mp nodup).1 (List.mem_map_of_mem rest)
      rw [other j unlike]
      exact before.known j node member
    · intro j seen member
      rcases List.mem_cons.mp member with equal | rest
      · simp at equal
      · have unlike : j ≠ i := by
          rintro rfl
          exact last (List.mem_map_of_mem rest)
        rw [other j unlike]
        exact before.typed j seen
          (refsEq.mem_iff.mpr (List.mem_cons_of_mem _ rest))
    · intro a b member
      simp at member
    · intro j sole
      simp at sole
  · exact shared.owner_update rfl rfl
  · intro j sole
    simp at sole
  · rintro j ⟨seen, member⟩
    rcases List.mem_cons.mp member with equal | rest
    · simp at equal
    · exact Or.inl ⟨seen, refsEq.mem_iff.mpr (List.mem_cons_of_mem _ rest)⟩
  · apply shared.counted_update inside _ (fun _ => rfl) rfl
    intro j
    rw [View.count_cons refsEq]
    exact View.count_cons (List.Perm.refl _) j
  · exact shared.outside_same inside
  · intro j allocated
    have unlike := notFreed j allocated
    rw [other j unlike] at allocated
    exact shared.born j allocated
  · intro h j dirH names dirJ
    have unlikeH := notFreed h (by simp [dirH])
    have unlikeJ := notFreed j (by simp [dirJ])
    rw [other h unlikeH] at dirH names
    rw [other j unlikeJ] at dirJ
    exact shared.ordered h j dirH names dirJ

end Shared

/-! ## The steps of the system -/

theorem State.CacheOk.setRef {i : Inum} {count : Nat} (ok : s.CacheOk)
    (cached : 0 < count → 0 < s.ref i) : (s.setRef i count).CacheOk := by
  intro j valid pos
  apply ok j valid
  by_cases same : j = i
  · subst same
    exact cached (by simpa using pos)
  · simpa [Function.update_of_ne same] using pos

theorem State.CacheOk.iget {s' : State} {i : Inum} (ok : s.CacheOk)
    (got : s.iget i = some s') : s'.CacheOk := by
  intro j valid pos
  rw [(iget_same got).1]
  by_cases cached : 0 < s.ref j
  · apply ok j _ cached
    unfold State.iget at got
    split at got
    · cases got
      exact valid
    · split at got
      · cases got
      · cases got
        have distinct : j ≠ i := by
          rintro rfl
          contradiction
        simpa [Function.update_of_ne distinct] using valid
  · exfalso
    have counted := iget_ref got j
    have same : j = i := by
      by_contra distinct
      simp only [refers, Option.some.injEq, Ne.symm distinct, if_false] at counted
      omega
    subst same
    unfold State.iget at got
    rw [if_neg cached] at got
    split at got
    · cases got
    · cases got
      simp at valid

namespace Consistent

variable {sys : System}

/-- A process takes a step to a new view. -/
theorem goto (consistent : Consistent sys views pids birth clock)
    {s' : State} {next : Prog} {v : View} {pids' : Finset Pid}
    {birth' : Inum → Nat} {clock' : Nat}
    (shared : Shared s' (Function.update views pid v) pids' birth' clock')
    (inside : pid ∈ pids') (larger : pids ⊆ pids') (safe : Safe next v)
    (cached : (∀ message, next ≠ .panic message) → s'.CacheOk) :
    Consistent (sys.goto pid s' next) (Function.update views pid v) pids' birth'
      clock' := by
  have state : (sys.goto pid s' next).state = s' := by
    cases next <;> rfl
  have prog : (sys.goto pid s' next).prog =
      Function.update sys.prog pid (some next) := by
    cases next <;> rfl
  constructor
  · rw [state]
    exact shared
  · intro p current entered
    rw [prog] at entered
    by_cases same : p = pid
    · subst same
      rw [Function.update_self] at entered ⊢
      cases entered
      exact safe
    · rw [Function.update_of_ne same] at entered ⊢
      exact consistent.safe p current entered
  · intro p idle
    rw [prog] at idle
    have distinct : p ≠ pid := by
      rintro rfl
      simp at idle
    rw [Function.update_of_ne distinct] at idle ⊢
    exact consistent.idle p idle
  · intro p entered
    rw [prog] at entered
    by_cases same : p = pid
    · subst same
      exact inside
    · rw [Function.update_of_ne same] at entered
      exact larger (consistent.inside p entered)
  · intro running
    rw [state]
    apply cached
    rintro message rfl
    simp [System.goto] at running

/-- A process takes a step that leaves its view as it is. -/
theorem goto_same (consistent : Consistent sys views pids birth clock)
    {s' : State} {next : Prog} {pids' : Finset Pid} {birth' : Inum → Nat}
    {clock' : Nat} (shared : Shared s' views pids' birth' clock')
    (inside : pid ∈ pids') (larger : pids ⊆ pids')
    (safe : Safe next (views pid))
    (cached : (∀ message, next ≠ .panic message) → s'.CacheOk) :
    Consistent (sys.goto pid s' next) views pids' birth' clock' := by
  have same : Function.update views pid (views pid) = views :=
    Function.update_eq_self pid views
  rw [← same] at shared ⊢
  exact consistent.goto shared inside larger safe cached

theorem fill_step (consistent : Consistent sys views pids birth clock)
    (cached : sys.state.CacheOk) (inside : pid ∈ pids) {i : Inum}
    {next : Inode → Prog} (safe : Safe (.fill i next) (views pid))
    {choice : Inum} {s' : State} {after : Prog}
    (stepped : Prog.step pid choice sys.state (.fill i next) = some (s', after)) :
    ∃ views, Consistent (sys.goto pid s' after) views pids birth clock := by
  obtain ⟨old, locks, type, refs, locksEq, refsEq, rest⟩ := safe
  have shared := consistent.shared
  have referenced : 0 < sys.state.ref i := by
    have one := shared.count_le_ref inside i
    rw [View.count_cons refsEq] at one
    simp only [refers, if_true] at one
    omega
  have seen : ∀ type', type = some type' → (sys.state.inode i).type = type' := by
    rintro type' rfl
    exact ((shared.ok pid).typed i type'
      (refsEq.mem_iff.mpr List.mem_cons_self)).1
  simp only [Prog.step] at stepped
  split at stepped
  next valid =>
      cases stepped
      have allocated := cached i valid referenced
      exact ⟨_, consistent.goto (shared.fill inside locksEq refsEq allocated)
        inside (Finset.Subset.refl _) (rest _ allocated seen) fun _ => cached⟩
  next invalid =>
      have validOk : (sys.state.inode i).type ≠ .free →
          (sys.state.setValid i true).CacheOk := by
        intro allocated j valid pos
        by_cases same : j = i
        · subst same
          exact allocated
        · exact cached j (by simpa [Function.update_of_ne same] using valid) pos
      have kept : Shared (sys.state.setValid i true) views pids birth clock :=
        shared.keep rfl rfl (Finset.Subset.refl _) (fun _ => Nat.le_refl _)
          fun p absent => (shared.outside p absent).1
      split at stepped
      next free =>
          cases stepped
          exact ⟨views, consistent.goto_same kept inside (Finset.Subset.refl _)
            trivial fun running => absurd rfl (running .noType)⟩
      next allocated =>
          cases stepped
          exact ⟨_, consistent.goto (kept.fill inside locksEq refsEq allocated)
            inside (Finset.Subset.refl _) (rest _ allocated seen)
            fun _ => validOk allocated⟩

theorem ialloc_step (consistent : Consistent sys views pids birth clock)
    (cached : sys.state.CacheOk) (inside : pid ∈ pids) {type : FileType}
    {next : Inum → Prog} (safe : Safe (.ialloc type next) (views pid))
    {choice : Inum} {s' : State} {after : Prog}
    (stepped : Prog.step pid choice sys.state (.ialloc type next) =
      some (s', after)) :
    ∃ views birth clock,
      Consistent (sys.goto pid s' after) views pids birth clock := by
  obtain ⟨nonfree, rest⟩ := safe
  have shared := consistent.shared
  simp only [Prog.step] at stepped
  split at stepped
  next isFree =>
      have free := isFree.2.2
      have cachedNew :
          (sys.state.setInode choice (State.newInode type)).CacheOk := by
        intro j valid pos
        by_cases same : j = choice
        · subst same
          simpa [State.newInode] using nonfree
        · simpa [Function.update_of_ne same] using cached j valid pos
      have reborn := shared.allocate type free
      split at stepped
      next got =>
          cases stepped
          refine ⟨_, _, _, consistent.goto
            (reborn.gain_allocated inside nonfree (by simp [State.newInode]) ?_ ?_
              got)
            inside (Finset.Subset.refl _) (rest choice) fun _ => cachedNew.iget got⟩
          · intro p only
            exact ((shared.ok p).sole choice only).2 free
          · rintro j ⟨seen, member⟩
            obtain ⟨same, allocated⟩ := (shared.ok pid).typed j seen member
            have distinct : j ≠ choice := by
              rintro rfl
              exact allocated (same.symm.trans free)
            rw [Function.update_of_ne distinct, Function.update_self]
            exact shared.born j (same ▸ allocated)
      next full =>
          cases stepped
          exact ⟨_, _, _, consistent.goto_same reborn inside
            (Finset.Subset.refl _) trivial
            fun running => absurd rfl (running .igetNoInodes)⟩
  next =>
      split at stepped
      next none =>
          cases stepped
          exact ⟨views, birth, clock, consistent.goto_same shared inside
            (Finset.Subset.refl _) trivial
            fun running => absurd rfl (running .iallocNoInodes)⟩
      next => cases stepped

/-- Files are given up, with or without the last reference to them. -/
theorem fileDrop_step (consistent : Consistent sys views pids birth clock)
    (cached : sys.state.CacheOk) (inside : pid ∈ pids) {fd : Fin nofile}
    {next : Option (Option Inum) → Prog}
    (safe : Safe (.fileDrop fd next) (views pid))
    {choice : Inum} {s' : State} {after : Prog}
    (stepped : Prog.step pid choice sys.state (.fileDrop fd next) =
      some (s', after)) :
    ∃ views, Consistent (sys.goto pid s' after) views pids birth clock := by
  obtain ⟨closed, shares, last⟩ := safe
  have shared := consistent.shared
  have cwd := fun p absent => (shared.outside p absent).1
  have all := Finset.Subset.refl pids
  simp only [Prog.step] at stepped
  split at stepped
  next f opened =>
      have held := held_setFile (sys.state.setOfile pid fd none) pids f
      split at stepped
      next =>
          cases stepped
          cases target : (sys.state.ftable f).ip with
          | some i =>
              refine ⟨_, consistent.goto
                (shared.gain inside rfl rfl ?_ cwd) inside all (last i) fun _ => cached⟩
              intro j
              have moved := held ⟨0, none⟩ j
              have same : (sys.state.setOfile pid fd none).held pids j =
                sys.state.held pids j := rfl
              simp only [State.setOfile_ftable, target, same] at moved
              simp only [refers, reduceCtorEq, if_false] at moved ⊢
              simp only [State.setFile_ref, State.setOfile_ref]
              omega
          | none =>
              refine ⟨views, consistent.goto_same
                (shared.keep rfl rfl all ?_ cwd) inside all shares fun _ => cached⟩
              intro j
              have moved := held ⟨0, none⟩ j
              have same : (sys.state.setOfile pid fd none).held pids j =
                sys.state.held pids j := rfl
              simp only [State.setOfile_ftable, target, same] at moved
              simp only [State.setFile_ref, State.setOfile_ref]
              omega
      next =>
          cases stepped
          refine ⟨views, consistent.goto_same
            (shared.keep rfl rfl all ?_ cwd) inside all shares fun _ => cached⟩
          intro j
          have moved := held
            { sys.state.ftable f with ref := (sys.state.ftable f).ref - 1 } j
          have same : (sys.state.setOfile pid fd none).held pids j =
            sys.state.held pids j := rfl
          simp only [State.setOfile_ftable, same] at moved
          simp only [State.setFile_ref, State.setOfile_ref]
          omega
  next =>
      cases stepped
      exact ⟨views, consistent.goto_same shared inside all closed fun _ => cached⟩

/-- One step of a call keeps the invariant. -/
theorem run (consistent : Consistent sys views pids birth clock)
    (running : sys.panicked = none) {prog : Prog}
    (entered : sys.prog pid = some prog) {choice : Inum} {s' : State}
    {after : Prog} (stepped : prog.step pid choice sys.state = some (s', after)) :
    ∃ views pids birth clock,
      Consistent (sys.goto pid s' after) views pids birth clock := by
  have shared := consistent.shared
  have cached := consistent.cached running
  have inside := consistent.inside pid (by simp [entered])
  have safe := consistent.safe pid prog entered
  have cwd := fun p absent => (shared.outside p absent).1
  have all := Finset.Subset.refl pids
  cases prog with
  | done result => cases stepped
  | panic message => cases stepped
  | acquire caller i next =>
      simp only [Prog.step] at stepped
      split at stepped
      next unowned =>
          cases stepped
          exact ⟨_, _, _, _, consistent.goto (shared.acquire inside unowned)
            inside all safe.2 fun _ => cached⟩
      next => cases stepped
  | release i next =>
      obtain ⟨node, locks, locksEq, rest⟩ := safe
      cases stepped
      exact ⟨_, _, _, _, consistent.goto (shared.release inside locksEq) inside
        all rest fun _ => cached⟩
  | fill i next =>
      obtain ⟨views, result⟩ := consistent.fill_step cached inside safe stepped
      exact ⟨views, _, _, _, result⟩
  | store i node next =>
      obtain ⟨old, locks, locksEq, type, entries, rest⟩ := safe
      cases stepped
      refine ⟨_, _, _, _, consistent.goto
        (shared.store inside locksEq type entries) inside all rest fun _ => ?_⟩
      intro j valid pos
      by_cases same : j = i
      · subst same
        obtain ⟨contents, allocated⟩ := (shared.ok pid).known j old
          (locksEq.mem_iff.mpr List.mem_cons_self)
        simpa [type] using allocated
      · simpa [Function.update_of_ne same] using cached j valid pos
  | iget i next =>
      simp only [Prog.step] at stepped
      split at stepped
      next got =>
          cases stepped
          obtain ⟨inode, lock, cwdSame, ftable, -, -⟩ := iget_same got
          refine ⟨_, _, _, _, consistent.goto
            (shared.gain inside inode lock ?_ ?_) inside all safe
            fun _ => cached.iget got⟩
          · intro j
            have ref := iget_ref got j
            simp only [State.held, cwdSame, ftable]
            omega
          · rw [cwdSame]
            exact cwd
      next =>
          cases stepped
          exact ⟨_, _, _, _, consistent.goto_same shared inside all trivial
            fun running => absurd rfl (running .igetNoInodes)⟩
  | idupCwd next =>
      simp only [Prog.step] at stepped
      split at stepped
      next i current =>
          cases stepped
          refine ⟨_, _, _, _, consistent.goto (shared.gain inside rfl rfl ?_ cwd)
            inside all (safe i) fun _ => ?_⟩
          · intro j
            by_cases same : j = i
            · subst same
              simp [State.held, refers]
              omega
            · simp [State.held, refers, Function.update_of_ne same, Ne.symm same]
          · apply cached.setRef
            intro _
            have total := shared.counted i
            have pos := held_pos_of_cwd inside current
            omega
      next => cases stepped
  | ialloc type next =>
      obtain ⟨views, birth, clock, result⟩ :=
        consistent.ialloc_step cached inside safe stepped
      exact ⟨views, _, birth, clock, result⟩
  | lastRef i next =>
      obtain ⟨locked, mine, notLast, last⟩ := safe
      cases stepped
      cases test : sys.state.valid i && (sys.state.inode i).nlink == 0 &&
          sys.state.ref i == 1 with
      | false =>
          exact ⟨_, _, _, _, consistent.goto_same shared inside all notLast
            fun _ => cached⟩
      | true =>
          simp only [Bool.and_eq_true, beq_iff_eq] at test
          obtain ⟨⟨valid, -⟩, one⟩ := test
          have allocated := cached i valid (by omega)
          have exactly : (views pid).count i = 1 := by
            have most := shared.count_le_ref inside i
            have least : 0 < (views pid).count i := List.count_pos_iff.mpr mine
            omega
          exact ⟨_, _, _, _, consistent.goto
            (shared.lastRef inside locked mine allocated one) inside all
            (last exactly) fun _ => cached⟩
  | free i next =>
      obtain ⟨only, locks, type, refs, locksEq, refsEq, absent, rest⟩ := safe
      cases stepped
      refine ⟨_, _, _, _, consistent.goto
        (shared.free inside only locksEq refsEq absent) inside all rest fun _ => ?_⟩
      intro j valid pos
      have distinct : j ≠ i := by
        rintro rfl
        simp [State.freeInode] at valid
      simp [State.freeInode, Function.update_of_ne distinct] at valid pos ⊢
      exact cached j valid pos
  | unref i next =>
      obtain ⟨type, refs, refsEq, rest⟩ := safe
      cases stepped
      refine ⟨_, _, _, _, consistent.goto
        (shared.drop inside refsEq rfl rfl ?_ cwd) inside all rest fun _ => ?_⟩
      · intro j
        have one := shared.count_le_ref inside i
        rw [View.count_cons refsEq] at one
        by_cases same : j = i
        · subst same
          simp [State.held, refers] at one ⊢
          omega
        · simp [State.held, refers, Function.update_of_ne same, Ne.symm same]
      · apply cached.setRef
        intro pos
        omega
  | takeCwd next =>
      simp only [Prog.step] at stepped
      split at stepped
      next i current =>
          cases stepped
          refine ⟨_, _, _, _, consistent.goto (shared.gain inside rfl rfl ?_ ?_)
            inside all (safe i) fun _ => cached⟩
          · intro j
            have moved := held_setCwd sys.state inside none j
            simp only [current] at moved
            simp only [refers, reduceCtorEq, if_false] at moved ⊢
            simp only [State.setCwd_ref]
            omega
          · intro p absent
            by_cases same : p = pid
            · subst same
              simp
            · simpa [Function.update_of_ne same] using cwd p absent
      next => cases stepped
  | setCwd i next =>
      obtain ⟨type, refs, refsEq, rest⟩ := safe
      cases stepped
      refine ⟨_, _, _, _, consistent.goto
        (shared.drop inside refsEq rfl rfl ?_ ?_) inside all rest fun _ => cached⟩
      · intro j
        have moved := held_setCwd sys.state inside (some i) j
        simp only [State.setCwd_ref]
        omega
      · intro p absent
        have distinct : p ≠ pid := by
          rintro rfl
          exact absent inside
        simpa [Function.update_of_ne distinct] using cwd p absent
  | fileAlloc next =>
      simp only [Prog.step] at stepped
      split at stepped
      next fd f found =>
          cases stepped
          refine ⟨_, _, _, _, consistent.goto_same (shared.keep rfl rfl all ?_ cwd)
            inside all (safe (some (fd, f))) fun _ => cached⟩
          intro j
          have moved := held_setFile sys.state pids f ⟨1, none⟩ j
          have same : ((sys.state.setFile f ⟨1, none⟩).setOfile pid fd (some f)).held
            pids j = (sys.state.setFile f ⟨1, none⟩).held pids j := rfl
          simp only [same, State.setFile_ref, State.setOfile_ref]
          simp only [refers, reduceCtorEq, if_false] at moved
          omega
      next =>
          cases stepped
          exact ⟨_, _, _, _, consistent.goto_same shared inside all (safe none)
            fun _ => cached⟩
  | fileInstall f i next =>
      obtain ⟨type, refs, refsEq, rest⟩ := safe
      cases stepped
      refine ⟨_, _, _, _, consistent.goto
        (shared.drop inside refsEq rfl rfl ?_ cwd) inside all rest fun _ => cached⟩
      intro j
      have moved := held_setFile sys.state pids f
        ⟨(sys.state.ftable f).ref, some i⟩ j
      dsimp only at moved
      simp only [State.setFile_ref]
      omega
  | fileDrop fd next =>
      obtain ⟨views, result⟩ := consistent.fileDrop_step cached inside safe stepped
      exact ⟨views, _, _, _, result⟩
  | fork child next =>
      simp only [Prog.step] at stepped
      split at stepped
      next i current =>
          split at stepped
          next unused =>
              cases stepped
              refine ⟨_, _, _, _, consistent.goto_same
                (shared.keep rfl rfl (Finset.subset_insert child pids) ?_ ?_)
                (Finset.mem_insert_of_mem inside) (Finset.subset_insert child pids)
                safe fun _ => ?_⟩
              · intro j
                rw [held_forkFiles _ _ _ unused.1]
                by_cases same : j = i
                · subst same
                  simp [State.forkFiles, refers]
                  omega
                · simp [State.forkFiles, refers, Function.update_of_ne same,
                    Ne.symm same]
              · intro p absent
                rw [Finset.mem_insert, not_or] at absent
                simpa [State.forkFiles, Function.update_of_ne absent.1] using
                  cwd p absent.2
              · have pos := held_pos_of_cwd inside current
                have total := shared.counted i
                exact cached.setRef (i := i) fun _ => by omega
          next => cases stepped
      next => cases stepped

/-- A call returns. -/
theorem leave (consistent : Consistent sys views pids birth clock)
    {result : Int} (entered : sys.prog pid = some (.done result)) :
    Consistent (sys.leave pid) (Function.update views pid .empty) pids birth
      clock := by
  have shared := consistent.shared
  have inside := consistent.inside pid (by simp [entered])
  have unlocked : (views pid).locks = [] := consistent.safe pid _ entered
  constructor
  · rw [System.leave_state]
    refine shared.of_same_inodes rfl ?_ ?_ ?_ ?_ ?_ ?_
    · refine ⟨List.nodup_nil, ?_, ?_, ?_, ?_⟩ <;> intros <;>
        simp [View.empty] at *
    · exact shared.owner_update rfl unlocked.symm
    · intro i only
      simp [View.empty] at only
    · rintro i ⟨type, member⟩
      simp [View.empty] at member
    · intro i
      have now := count_update views inside .empty i
      have before := shared.counted i
      have zero : View.empty.count i = 0 := rfl
      omega
    · exact shared.outside_same inside
  · intro p current entered
    rw [System.leave_prog] at entered
    have distinct : p ≠ pid := by
      rintro rfl
      simp at entered
    rw [Function.update_of_ne distinct] at entered ⊢
    exact consistent.safe p current entered
  · intro p idle
    rw [System.leave_prog] at idle
    by_cases same : p = pid
    · subst same
      simp
    · rw [Function.update_of_ne same] at idle ⊢
      exact consistent.idle p idle
  · intro p entered
    rw [System.leave_prog] at entered
    have distinct : p ≠ pid := by
      rintro rfl
      simp at entered
    rw [Function.update_of_ne distinct] at entered
    exact consistent.inside p entered
  · exact consistent.cached

/-- A call starts. -/
theorem enter (consistent : Consistent sys views pids birth clock)
    (idle : sys.prog pid = none) (lives : (sys.state.cwd pid).isSome)
    {prog : Prog} (safe : Safe prog .empty) :
    Consistent (sys.enter pid prog) views pids birth clock := by
  constructor
  · exact consistent.shared
  · intro p current entered
    rw [System.enter_prog] at entered
    by_cases same : p = pid
    · subst same
      rw [Function.update_self] at entered
      cases entered
      rw [consistent.idle p idle]
      exact safe
    · rw [Function.update_of_ne same] at entered
      exact consistent.safe p current entered
  · intro p still
    rw [System.enter_prog] at still
    have distinct : p ≠ pid := by
      rintro rfl
      simp at still
    rw [Function.update_of_ne distinct] at still
    exact consistent.idle p still
  · intro p entered
    rw [System.enter_prog] at entered
    by_cases same : p = pid
    · subst same
      by_contra absent
      simp [(consistent.shared.outside p absent).1] at lives
    · rw [Function.update_of_ne same] at entered
      exact consistent.inside p entered
  · exact consistent.cached

/-- One step of the system keeps the invariant. -/
theorem step (consistent : Consistent sys views pids birth clock)
    (safe : ∀ syscall : Syscall, Safe syscall.prog .empty) {label : Label}
    {after : System} (stepped : sys.step label = some after) :
    ∃ views pids birth clock, Consistent after views pids birth clock := by
  unfold System.step at stepped
  split at stepped
  next running =>
      split at stepped
      next pid syscall =>
          split at stepped
          next enabled =>
              cases stepped
              exact ⟨_, _, _, _, consistent.enter enabled.1 enabled.2 (safe syscall)⟩
          next => cases stepped
      next pid choice =>
          split at stepped
          next result entered =>
              cases stepped
              exact ⟨_, _, _, _, consistent.leave entered⟩
          next prog _ entered =>
              split at stepped
              next state next moved =>
                  cases stepped
                  exact consistent.run running entered moved
              next => cases stepped
          next => cases stepped
  next => cases stepped

end Consistent

end Steps

/-! ## Inodes of the disk -/

/-- Inodes that the disk does not have are free and unlocked. -/
def State.Bounded (s : State) : Prop :=
  ∀ i, s.ninodes ≤ i → (s.inode i).type = .free ∧ s.lock i = none

namespace State.Bounded

variable {s t : State} {i : Inum}

theorem keep (bounded : s.Bounded) (ninodes : t.ninodes = s.ninodes)
    (inode : t.inode = s.inode) (lock : t.lock = s.lock) : t.Bounded := by
  intro j beyond
  rw [inode, lock]
  exact bounded j (ninodes ▸ beyond)

theorem setLock (bounded : s.Bounded) (inside : i < s.ninodes) (owner : Option Pid) :
    (s.setLock i owner).Bounded := by
  intro j beyond
  have apart : j ≠ i := Nat.ne_of_gt (Nat.lt_of_lt_of_le inside beyond)
  exact ⟨(bounded j beyond).1, (Function.update_of_ne apart _ _).trans (bounded j beyond).2⟩

theorem unlock (bounded : s.Bounded) (i : Inum) : (s.setLock i none).Bounded := by
  intro j beyond
  refine ⟨(bounded j beyond).1, ?_⟩
  simp only [State.setLock_lock, Function.update_apply]
  split
  · rfl
  · exact (bounded j beyond).2

theorem setInode (bounded : s.Bounded) {node : Inode}
    (inside : i < s.ninodes ∨ node.type = .free) : (s.setInode i node).Bounded := by
  intro j beyond
  refine ⟨?_, (bounded j beyond).2⟩
  simp only [State.setInode_inode, Function.update_apply]
  split
  next same =>
    rcases inside with inside | free
    · exact absurd beyond (by rw [same]; exact Nat.not_le.mpr inside)
    · exact free
  next => exact (bounded j beyond).1

theorem iget (bounded : s.Bounded) (got : s.iget i = some t) : t.Bounded := by
  unfold State.iget at got
  split_ifs at got <;> cases got <;> exact bounded.keep rfl rfl rfl

end State.Bounded

/-- The call is not about to lock or to write an inode that the disk does not
have. -/
def Prog.onDisk (s : State) : Prog → Bool
  | .acquire _ i _ | .store i _ _ => i < s.ninodes
  | _ => true

theorem bounded_step {pid : Pid} {choice : Inum} {s s' : State} {prog after : Prog}
    (bounded : s.Bounded) (inside : prog.onDisk s = true)
    (stepped : prog.step pid choice s = some (s', after)) : s'.Bounded := by
  cases prog <;> simp only [Prog.step] at stepped
  case done | panic => cases stepped
  case acquire =>
    split_ifs at stepped
    cases stepped
    exact bounded.setLock (of_decide_eq_true inside) _
  case release =>
    cases stepped
    exact bounded.unlock _
  case store =>
    cases stepped
    exact bounded.setInode (.inl (of_decide_eq_true inside))
  case ialloc type next =>
    split_ifs at stepped with free none
    · have changed : (s.setInode choice (State.newInode type)).Bounded :=
        bounded.setInode (.inl free.2.1)
      split at stepped
      next got =>
        cases stepped
        exact changed.iget got
      next =>
        cases stepped
        exact changed
    · cases stepped
      exact bounded
  case iget =>
    split at stepped
    next got =>
      cases stepped
      exact bounded.iget got
    next =>
      cases stepped
      exact bounded
  case free =>
    cases stepped
    exact (bounded.setInode (.inr rfl)).keep rfl rfl rfl
  all_goals
    repeat' split at stepped
    all_goals
      cases stepped <;> exact bounded.keep rfl rfl rfl

/-- No lock and no store is of an inode that the disk does not have. -/
def System.OnDisk (s : System) : Label → Prop
  | .call _ _ => True
  | .run pid _ => ∀ prog ∈ s.prog pid, prog.onDisk s.state = true

instance (s : System) (label : Label) : Decidable (s.OnDisk label) :=
  match label with
  | .call _ _ => inferInstanceAs (Decidable True)
  | .run _ _ => inferInstanceAs (Decidable (∀ prog ∈ _, _))

theorem System.bounded_step {s next : System} {label : Label} (bounded : s.state.Bounded)
    (onDisk : s.OnDisk label) (stepped : s.step label = some next) :
    next.state.Bounded := by
  unfold System.step at stepped
  split at stepped
  next =>
      split at stepped
      next pid syscall =>
          split at stepped
          next =>
              cases stepped
              exact bounded
          next => cases stepped
      next pid choice =>
          split at stepped
          next =>
              cases stepped
              exact bounded
          next prog _ entered =>
              split at stepped
              next state after moved =>
                  cases stepped
                  have kept := Fs.bounded_step bounded (onDisk prog entered) moved
                  cases after <;> exact kept
              next => cases stepped
          next => cases stepped
  next => cases stepped

end Xv6.Fs
