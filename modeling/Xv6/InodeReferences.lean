import Mathlib.Data.Fintype.Basic
import Mathlib.Data.Finset.Card
import Xv6.StateTriples
import Xv6.SyscallModel

/-!
# References to the inode cache during a call

`Has` says what a call owns while it runs: how many references each entry of
the inode cache has, which entries are locked, and how many transactions are
open; no two entries in use are of one inode.  Each function of the inode
layer and each path walk has a specification over it, whatever the disk holds
and however the function ends.
-/

namespace Xv6.Calls

open StateTriples
open Fs (FileType Name ninode dirlookupFrom insertDirent elements)

/-- The panics that the file table must never reach are not allowed, and `iget` may
find no entry only if the cache is `short` of entries. -/
def Benign (short : Prop) (halt : Halt) : Prop :=
  halt ≠ .filedup ∧ halt ≠ .fileclose ∧ (halt = .igetNoInodes → short)

theorem Benign.of_other {short : Prop} {halt : Halt}
    (other : halt ≠ .filedup ∧ halt ≠ .fileclose ∧ halt ≠ .igetNoInodes) : Benign short halt :=
  ⟨other.1, other.2.1, fun noEntry => absurd noEntry other.2.2⟩

/-- One more reference to an entry. -/
def bump (refs : Ip → Nat) (ip : Ip) : Ip → Nat :=
  Function.update refs ip (refs ip + 1)

@[simp]
theorem bump_self (refs : Ip → Nat) (ip : Ip) : bump refs ip ip = refs ip + 1 := by
  simp [bump]

theorem bump_of_ne {refs : Ip → Nat} {ip jp : Ip} (differ : jp ≠ ip) :
    bump refs ip jp = refs jp :=
  Function.update_of_ne differ _ _

theorem bump_comm (refs : Ip → Nat) (ip jp : Ip) :
    bump (bump refs ip) jp = bump (bump refs jp) ip := by
  by_cases same : ip = jp
  · rw [same]
  · funext kp
    by_cases first : kp = ip
    · subst first
      rw [bump_of_ne same, bump_self, bump_self, bump_of_ne same]
    · rw [bump_of_ne first]
      by_cases second : kp = jp
      · subst second
        rw [bump_self, bump_self, bump_of_ne first]
      · rw [bump_of_ne second, bump_of_ne second, bump_of_ne first]

theorem pos_of_bump {refs : Ip → Nat} (ip : Ip) {jp : Ip} (pos : 0 < refs jp) :
    0 < bump refs ip jp := by
  by_cases same : jp = ip
  · subst same
    simp
  · rwa [bump_of_ne same]

/-- How many entries nothing refers to. -/
def unused (refs : Ip → Nat) : Nat :=
  (Finset.univ.filter fun ip => refs ip = 0).card

theorem unused_eq_zero {refs : Ip → Nat} (inUse : ∀ ip, refs ip ≠ 0) : unused refs = 0 := by
  rw [unused, Finset.card_eq_zero, Finset.filter_eq_empty_iff]
  exact fun ip _ => inUse ip

/-- A reference takes one entry at most. -/
theorem unused_le_of_bump {refs : Ip → Nat} {ip : Ip} {n : Nat}
    (few : unused (bump refs ip) ≤ n) : unused refs ≤ n + 1 := by
  refine le_trans ?_ (Nat.succ_le_succ few)
  refine le_trans (Finset.card_le_card fun jp free => ?_) (Finset.card_insert_le ip _)
  rw [Finset.mem_filter] at free
  rw [Finset.mem_insert, Finset.mem_filter]
  by_cases same : jp = ip
  · exact .inl same
  · exact .inr ⟨free.1, by rw [bump_of_ne same, free.2]⟩

/-- The entries are locked or not as `locked` says. -/
abbrev Locks := Ip → Bool

namespace State

/-- An entry in use holds the copy of an inode. -/
def Caches (s : State) (refs : Ip → Nat) (dev inum : Nat) : Prop :=
  ∃ ip, 0 < refs ip ∧ (s.icache ip).dev = dev ∧ (s.icache ip).inum = inum ∧
    (s.icache ip).valid = true

@[simp]
theorem setIp_icache (s : State) (ip : Ip) (inode : Inode) :
    (s.setIp ip inode).icache = Function.update s.icache ip inode :=
  rfl

@[simp]
theorem setIp_disk (s : State) (ip : Ip) (inode : Inode) : (s.setIp ip inode).disk = s.disk :=
  rfl

@[simp]
theorem setDisk_icache (s : State) (dev inum : Nat) (node : Dinode) :
    (s.setDisk dev inum node).icache = s.icache :=
  rfl

theorem setDisk_self (s : State) (dev inum : Nat) (node : Dinode) :
    (s.setDisk dev inum node).disk dev inum = node := by
  simp [setDisk]

theorem setDisk_of_ne (s : State) {dev inum dev' inum' : Nat} (node : Dinode)
    (differ : ¬ (dev' = dev ∧ inum' = inum)) :
    (s.setDisk dev inum node).disk dev' inum' = s.disk dev' inum' := by
  by_cases same : dev' = dev
  · subst same
    have other : inum' ≠ inum := fun equal => differ ⟨rfl, equal⟩
    simp [setDisk, Function.update_of_ne other]
  · simp [setDisk, Function.update_of_ne same]

@[simp]
theorem setIp_setIp (s : State) (ip : Ip) (first second : Inode) :
    (s.setIp ip first).setIp ip second = s.setIp ip second := by
  simp [setIp]

@[simp]
theorem setIp_setDisk (s : State) (ip : Ip) (inode : Inode) (dev inum : Nat) (node : Dinode) :
    (s.setIp ip inode).setDisk dev inum node = (s.setDisk dev inum node).setIp ip inode :=
  rfl

end State

/-- The tables of the files, the references, the locks and the number of open
transactions.  A copy of an inode is that on disk, a locked entry has one, and
under `sound` an inode without links is in use. -/
structure Has (sound : Prop) (files : Files) (refs : Ip → Nat) (locks : Locks) (ops : Nat)
    (s : State) : Prop where
  files : s.files = files
  ref : ∀ ip, (s.icache ip).ref = refs ip
  locked : ∀ ip, (s.icache ip).locked = locks ip
  outstanding : s.outstanding = ops
  unique : ∀ ip jp, 0 < refs ip → 0 < refs jp →
    (s.icache ip).dev = (s.icache jp).dev → (s.icache ip).inum = (s.icache jp).inum →
    ip = jp
  coherent : ∀ ip, 0 < refs ip → (s.icache ip).valid = true →
    (s.icache ip).node = s.disk (s.icache ip).dev (s.icache ip).inum ∧
      (s.icache ip).node.type ≠ .free
  filled : ∀ ip, locks ip = true → 0 < refs ip ∧ (s.icache ip).valid = true
  kept : sound → ∀ dev inum, (s.disk dev inum).type ≠ .free → (s.disk dev inum).nlink = 0 →
    s.Caches refs dev inum

variable {sound short : Prop} {files : Files} {refs : Ip → Nat} {locked : Locks} {ops : Nat}
  {s : State} {ip dp : Ip}

/-- An entry of the cache changes, and the disk does not. -/
theorem Has.setIp (has : Has sound files refs locked ops s) {inode : Inode} {count : Nat}
    {lock : Bool} (ref : inode.ref = count) (lock' : inode.locked = lock)
    (alone : 0 < count → ∀ jp, jp ≠ ip → 0 < refs jp →
      ¬ ((s.icache jp).dev = inode.dev ∧ (s.icache jp).inum = inode.inum))
    (coherent : 0 < count → inode.valid = true →
      inode.node = s.disk inode.dev inode.inum ∧ inode.node.type ≠ .free)
    (filled : lock = true → 0 < count ∧ inode.valid = true)
    (kept : sound → 0 < refs ip → (s.icache ip).valid = true →
      (s.disk (s.icache ip).dev (s.icache ip).inum).nlink = 0 →
      0 < count ∧ inode.dev = (s.icache ip).dev ∧ inode.inum = (s.icache ip).inum ∧
        inode.valid = true) :
    Has sound files (Function.update refs ip count) (Function.update locked ip lock) ops
      (s.setIp ip inode) := by
  have here : (s.setIp ip inode).icache ip = inode := by simp
  have other {jp : Ip} (differ : jp ≠ ip) : (s.setIp ip inode).icache jp = s.icache jp := by
    simp [Function.update_of_ne differ]
  refine ⟨has.files, fun jp => ?_, fun jp => ?_, has.outstanding,
    fun jp kp one two dev inum => ?_, fun jp used valid => ?_, fun jp held => ?_,
    fun holds dev inum type nlink => ?_⟩
  · by_cases same : jp = ip
    · subst same
      rw [here, Function.update_self, ref]
    · rw [other same, Function.update_of_ne same]
      exact has.ref jp
  · by_cases same : jp = ip
    · subst same
      rw [here, Function.update_self, lock']
    · rw [other same, Function.update_of_ne same]
      exact has.locked jp
  · by_cases first : jp = ip
    · by_cases second : kp = ip
      · rw [first, second]
      · subst first
        rw [Function.update_self] at one
        rw [Function.update_of_ne second] at two
        rw [here, other second] at dev inum
        exact absurd ⟨dev.symm, inum.symm⟩ (alone one kp second two)
    · by_cases second : kp = ip
      · subst second
        rw [Function.update_self] at two
        rw [Function.update_of_ne first] at one
        rw [here, other first] at dev inum
        exact absurd ⟨dev, inum⟩ (alone two jp first one)
      · rw [Function.update_of_ne first] at one
        rw [Function.update_of_ne second] at two
        rw [other first, other second] at dev inum
        exact has.unique jp kp one two dev inum
  · by_cases same : jp = ip
    · subst same
      rw [Function.update_self] at used
      rw [here] at valid ⊢
      exact coherent used valid
    · rw [Function.update_of_ne same] at used
      rw [other same] at valid ⊢
      exact has.coherent jp used valid
  · by_cases same : jp = ip
    · subst same
      rw [Function.update_self] at held ⊢
      rw [here]
      exact filled held
    · rw [Function.update_of_ne same] at held ⊢
      rw [other same]
      exact has.filled jp held
  · obtain ⟨jp, used, isDev, isInum, valid⟩ := has.kept holds dev inum type nlink
    refine ⟨jp, ?_⟩
    by_cases same : jp = ip
    · subst same isDev isInum
      rw [Function.update_self, here]
      exact kept holds used valid nlink
    · rw [Function.update_of_ne same, other same]
      exact ⟨used, isDev, isInum, valid⟩

theorem Has.setRef (has : Has sound files refs locked ops s) {inode : Inode} {count : Nat}
    (ref : inode.ref = count) (lock : inode.locked = (s.icache ip).locked)
    (alone : 0 < count → ∀ jp, jp ≠ ip → 0 < refs jp →
      ¬ ((s.icache jp).dev = inode.dev ∧ (s.icache jp).inum = inode.inum))
    (coherent : 0 < count → inode.valid = true →
      inode.node = s.disk inode.dev inode.inum ∧ inode.node.type ≠ .free)
    (filled : locked ip = true → 0 < count ∧ inode.valid = true)
    (kept : sound → 0 < refs ip → (s.icache ip).valid = true →
      (s.disk (s.icache ip).dev (s.icache ip).inum).nlink = 0 →
      0 < count ∧ inode.dev = (s.icache ip).dev ∧ inode.inum = (s.icache ip).inum ∧
        inode.valid = true) :
    Has sound files (Function.update refs ip count) locked ops (s.setIp ip inode) := by
  have set := has.setIp ref (lock.trans (has.locked ip)) alone coherent filled kept
  rwa [Function.update_eq_self] at set

/-- One more reference to an entry in use. -/
theorem Has.addRef (has : Has sound files refs locked ops s) (used : 0 < refs ip) :
    Has sound files (bump refs ip) locked ops
      (s.setIp ip { s.icache ip with ref := (s.icache ip).ref + 1 }) := by
  refine has.setRef (by rw [has.ref]) rfl (fun _ jp other used' same => ?_)
    (fun _ => has.coherent ip used) (fun held => ?_) fun _ _ valid _ => ?_
  · exact other (has.unique jp ip used' used same.1 same.2)
  · exact ⟨Nat.succ_pos _, (has.filled ip held).2⟩
  · exact ⟨Nat.succ_pos _, rfl, rfl, valid⟩

/-- An entry in use is locked or unlocked, and may get its copy. -/
theorem Has.setLock (has : Has sound files refs locked ops s) (used : 0 < refs ip)
    {inode : Inode} {lock : Bool} (dev : inode.dev = (s.icache ip).dev)
    (inum : inode.inum = (s.icache ip).inum) (ref : inode.ref = (s.icache ip).ref)
    (lock' : inode.locked = lock)
    (coherent : inode.valid = true →
      inode.node = s.disk (s.icache ip).dev (s.icache ip).inum ∧ inode.node.type ≠ .free)
    (filled : lock = true → inode.valid = true)
    (stays : (s.icache ip).valid = true → inode.valid = true) :
    Has sound files refs (Function.update locked ip lock) ops (s.setIp ip inode) := by
  have set := has.setIp (ref.trans (has.ref ip)) lock' (fun _ jp other used' same => ?_)
    (fun _ valid => ?_) (fun held => ⟨used, filled held⟩)
    fun _ _ valid _ => ⟨used, dev, inum, stays valid⟩
  · rwa [Function.update_eq_self] at set
  · rw [dev, inum] at same
    exact other (has.unique jp ip used' used same.1 same.2)
  · rw [dev, inum]
    exact coherent valid

/-- An entry of the cache and its inode on disk change together. -/
theorem Has.write (has : Has sound files refs locked ops s) {inode : Inode} {node : Dinode}
    {count : Nat} (used : 0 < refs ip) (dev : inode.dev = (s.icache ip).dev)
    (inum : inode.inum = (s.icache ip).inum) (ref : inode.ref = count)
    (lock : inode.locked = locked ip)
    (coherent : 0 < count → inode.valid = true → inode.node = node ∧ node.type ≠ .free)
    (filled : locked ip = true → 0 < count ∧ inode.valid = true)
    (kept : node.type ≠ .free → node.nlink = 0 → 0 < count ∧ inode.valid = true) :
    Has sound files (Function.update refs ip count) locked ops
      ((s.setDisk (s.icache ip).dev (s.icache ip).inum node).setIp ip inode) := by
  have here : ((s.setDisk (s.icache ip).dev (s.icache ip).inum node).setIp ip inode).icache ip =
      inode := by simp
  have other {jp : Ip} (differ : jp ≠ ip) :
      ((s.setDisk (s.icache ip).dev (s.icache ip).inum node).setIp ip inode).icache jp =
        s.icache jp := by
    simp [Function.update_of_ne differ]
  have away {jp : Ip} (differ : jp ≠ ip) (pos : 0 < refs jp) :
      ¬ ((s.icache jp).dev = (s.icache ip).dev ∧ (s.icache jp).inum = (s.icache ip).inum) :=
    fun same => differ (has.unique jp ip pos used same.1 same.2)
  refine ⟨has.files, fun jp => ?_, fun jp => ?_, has.outstanding,
    fun jp kp one two isDev isInum => ?_, fun jp pos valid => ?_, fun jp held => ?_,
    fun holds dev' inum' type nlink => ?_⟩
  · by_cases same : jp = ip
    · subst same
      rw [here, Function.update_self, ref]
    · rw [other same, Function.update_of_ne same]
      exact has.ref jp
  · by_cases same : jp = ip
    · subst same
      rw [here, lock]
    · rw [other same]
      exact has.locked jp
  · by_cases first : jp = ip
    · by_cases second : kp = ip
      · rw [first, second]
      · subst first
        rw [Function.update_of_ne second] at two
        rw [here, other second, dev] at isDev
        rw [here, other second, inum] at isInum
        exact has.unique jp kp used two isDev isInum
    · rw [Function.update_of_ne first] at one
      by_cases second : kp = ip
      · subst second
        rw [here, other first, dev] at isDev
        rw [here, other first, inum] at isInum
        exact has.unique jp kp one used isDev isInum
      · rw [Function.update_of_ne second] at two
        rw [other first, other second] at isDev isInum
        exact has.unique jp kp one two isDev isInum
  · by_cases same : jp = ip
    · subst same
      rw [Function.update_self] at pos
      rw [here] at valid ⊢
      obtain ⟨isNode, type⟩ := coherent pos valid
      rw [isNode, dev, inum, State.setIp_disk, State.setDisk_self]
      exact ⟨rfl, type⟩
    · rw [Function.update_of_ne same] at pos
      rw [other same] at valid ⊢
      rw [State.setIp_disk, State.setDisk_of_ne _ _ (away same pos)]
      exact has.coherent jp pos valid
  · by_cases same : jp = ip
    · subst same
      rw [Function.update_self, here]
      exact filled held
    · rw [Function.update_of_ne same, other same]
      exact has.filled jp held
  · rw [State.setIp_disk] at type nlink
    by_cases place : dev' = (s.icache ip).dev ∧ inum' = (s.icache ip).inum
    · obtain ⟨rfl, rfl⟩ := place
      rw [State.setDisk_self] at type nlink
      obtain ⟨pos, valid⟩ := kept type nlink
      refine ⟨ip, ?_⟩
      rw [Function.update_self, here]
      exact ⟨pos, dev, inum, valid⟩
    · rw [State.setDisk_of_ne _ _ place] at type nlink
      obtain ⟨jp, pos, isDev, isInum, valid⟩ := has.kept holds dev' inum' type nlink
      have same : jp ≠ ip := by
        rintro rfl
        exact place ⟨isDev.symm, isInum.symm⟩
      refine ⟨jp, ?_⟩
      rw [Function.update_of_ne same, other same]
      exact ⟨pos, isDev, isInum, valid⟩

/-! ## The inode layer -/

/-- What the loop of `iget` returns. -/
theorem igetLoop_cases (icache : Ip → Inode) (dev inum : Nat) (entries : List Ip)
    (empty : Option Ip) (unused : ∀ ip, empty = some ip → (icache ip).ref = 0) :
    match igetLoop icache dev inum entries empty with
    | .cached ip => 0 < (icache ip).ref ∧ (icache ip).dev = dev ∧ (icache ip).inum = inum
    | .empty ip => (icache ip).ref = 0 ∧ ∀ jp ∈ entries, 0 < (icache jp).ref →
        ¬ ((icache jp).dev = dev ∧ (icache jp).inum = inum)
    | .full => True := by
  induction entries generalizing empty with
  | nil =>
      cases empty with
      | none => trivial
      | some ip => exact ⟨unused ip rfl, by simp⟩
  | cons ip rest ih =>
      by_cases hit : 0 < (icache ip).ref ∧ (icache ip).dev = dev ∧ (icache ip).inum = inum
      · simp only [igetLoop, if_pos hit]
        exact hit
      · simp only [igetLoop, if_neg hit]
        have remembered : ∀ jp, (if empty = none ∧ (icache ip).ref = 0 then some ip
            else empty) = some jp → (icache jp).ref = 0 := by
          intro jp chosen
          split at chosen
          case isTrue first =>
            cases chosen
            exact first.2
          case isFalse => exact unused jp chosen
        have result := ih _ remembered
        split at result
        · exact result
        · refine ⟨result.1, fun jp member used => ?_⟩
          rcases List.mem_cons.mp member with rfl | later
          · exact fun same => hit ⟨used, same.1, same.2⟩
          · exact result.2 jp later used
        · trivial

theorem igetLoop_full (icache : Ip → Inode) (dev inum : Nat) (entries : List Ip)
    (empty : Option Ip) (full : igetLoop icache dev inum entries empty = .full) :
    empty = none ∧ ∀ ip ∈ entries, (icache ip).ref ≠ 0 := by
  induction entries generalizing empty with
  | nil =>
      cases empty with
      | none => simp
      | some ip => cases full
  | cons ip rest ih =>
      rw [igetLoop] at full
      split at full
      case isTrue => cases full
      case isFalse =>
        obtain ⟨remembered, later⟩ := ih _ full
        split at remembered
        case isTrue => cases remembered
        case isFalse unused =>
          refine ⟨remembered, fun jp member => ?_⟩
          rcases List.mem_cons.mp member with rfl | inside
          · exact fun zero => unused ⟨remembered, zero⟩
          · exact later jp inside

theorem iget_spec (dev inum : Nat) (full : unused refs = 0 → short)
    (has : Has sound files refs locked ops s) :
    wp (Benign short) (iget dev inum)
      (fun ip t => Has sound files (bump refs ip) locked ops t) s := by
  simp only [iget, wp_bind, wp_get]
  have result := igetLoop_cases s.icache dev inum (List.finRange ninode) none
    (fun _ none => by cases none)
  cases found : igetLoop s.icache dev inum (List.finRange ninode) none with
  | cached ip =>
    rw [found] at result
    simp only [wp_bind, wp_set, wp_pure]
    exact has.addRef (has.ref ip ▸ result.1)
  | empty ip =>
    rw [found] at result
    have unused : refs ip = 0 := by rw [← has.ref, result.1]
    have count : refs ip + 1 = 1 := by rw [unused]
    simp only [wp_bind, wp_set, wp_pure]
    refine has.setRef count.symm rfl (fun _ jp _ used => ?_) (fun _ valid => ?_)
      (fun held => ?_) fun _ used => ?_
    · exact result.2 jp (List.mem_finRange jp) (has.ref jp ▸ used)
    · cases valid
    · have used := (has.filled ip held).1
      omega
    · omega
  | full =>
    simp only [wp_throw]
    refine ⟨by decide, by decide, fun _ => full (unused_eq_zero fun ip => ?_)⟩
    rw [← has.ref]
    exact (igetLoop_full _ _ _ _ _ found).2 ip (List.mem_finRange ip)

theorem idup_spec (has : Has sound files refs locked ops s) (used : 0 < refs ip) :
    wp (Benign short) (idup ip)
      (fun jp t => jp = ip ∧ Has sound files (bump refs ip) locked ops t) s := by
  simp only [idup, wp_bind, wp_modify, wp_pure, true_and]
  exact has.addRef used

/-- The copy of the inode that `ilock` leaves in the entry. -/
theorem ilock_spec (has : Has sound files refs locked ops s) :
    wp (Benign short) (ilock ip)
      (fun _ t => locked ip = false ∧
        Has sound files refs (Function.update locked ip true) ops t) s := by
  simp only [ilock, acquiresleep, fill, wp_bind, wp_get]
  split
  case isTrue => exact .of_other (by decide)
  case isFalse positive =>
    have used : 0 < refs ip := by
      rw [← has.ref]
      omega
    simp only [wp_bind, wp_get]
    split
    case isTrue => exact .of_other (by decide)
    case isFalse free =>
      rw [has.locked, Bool.not_eq_true] at free
      simp only [wp_set, State.setIp_icache, Function.update_self]
      split
      case isTrue valid =>
        exact ⟨free, has.setLock used rfl rfl rfl rfl (fun _ => has.coherent ip used valid)
          (fun _ => valid) fun _ => valid⟩
      case isFalse invalid =>
        simp only [wp_bind, wp_set, State.setIp_setIp]
        split
        case isTrue => exact .of_other (by decide)
        case isFalse typed =>
          exact ⟨free, has.setLock used rfl rfl rfl rfl (fun _ => ⟨rfl, typed⟩)
            (fun _ => rfl) fun _ => rfl⟩

theorem iunlock_spec (has : Has sound files refs locked ops s) :
    wp (Benign short) (iunlock ip)
      (fun _ t => Has sound files refs (Function.update locked ip false) ops t) s := by
  simp only [iunlock, releasesleep, wp_bind, wp_get]
  split
  case isTrue => exact .of_other (by decide)
  case isFalse held =>
    obtain ⟨_, positive⟩ := not_or.mp held
    have used : 0 < refs ip := by
      rw [← has.ref]
      omega
    exact has.setLock used rfl rfl rfl rfl (fun valid => has.coherent ip used valid)
      (fun off => by cases off) fun valid => valid

/-- A lock taken and released. -/
theorem unlock_lock (free : locked ip = false) :
    Function.update (Function.update locked ip true) ip false = locked := by
  rw [Function.update_idem, ← free, Function.update_eq_self]

/-- An inode is freed. -/
def Dinode.freed (node : Dinode) : Dinode :=
  { node with type := .free, dirents := [], data := [] }

/-- What `iput` does to an entry that is not locked. -/
def State.put (s : State) (ip : Ip) : State :=
  let inode := s.icache ip
  if inode.valid ∧ inode.node.nlink = 0 ∧ inode.ref = 1 then
    (s.setDisk inode.dev inode.inum inode.node.freed).setIp ip
      { inode with node := inode.node.freed, valid := false, ref := 0 }
  else s.setIp ip { inode with ref := inode.ref - 1 }

theorem wp_iput {allowed : Halt → Prop} {post : Unit → State → Prop} :
    wp allowed (iput ip) post s ↔
      if (s.icache ip).locked then allowed .asleep else post () (s.put ip) := by
  simp only [iput, acquiresleep, freeUnlinked, releasesleep, unref, wp_bind, wp_get]
  by_cases held : (s.icache ip).locked
  · rw [if_pos held, if_pos held]
    rfl
  · rw [if_neg held, if_neg held]
    rw [Bool.not_eq_true] at held
    simp only [wp_set, State.setIp_icache, Function.update_self]
    unfold State.put
    dsimp only
    split
    case isTrue last =>
      simp only [wp_set, wp_modify, State.setNode, State.iupdate, State.setIp_setDisk,
        State.setIp_setIp, State.setIp_icache, Function.update_self, State.setDisk_icache]
      rw [last.2.2, held]
      rfl
    case isFalse =>
      simp only [wp_pure, wp_modify, State.setIp_setIp, State.setIp_icache,
        Function.update_self]
      rw [held]

theorem Has.same (has : Has sound files (Function.update refs ip (refs ip)) locked ops s) :
    Has sound files refs locked ops s := by
  rwa [Function.update_eq_self] at has

/-- A reference taken and given up. -/
theorem Has.unbump (has : Has sound files (Function.update (bump refs ip) ip (refs ip)) locked
    ops s) : Has sound files refs locked ops s := by
  rwa [bump, Function.update_idem, Function.update_eq_self] at has

theorem iput_spec (has : Has sound files (bump refs ip) locked ops s) :
    wp (Benign short) (iput ip)
      (fun _ t => locked ip = false ∧ Has sound files refs locked ops t) s := by
  rw [wp_iput]
  split
  case isTrue => exact .of_other (by decide)
  case isFalse free =>
    rw [has.locked, Bool.not_eq_true] at free
    refine ⟨free, ?_⟩
    have used : 0 < bump refs ip ip := by simp
    have count : (s.icache ip).ref = refs ip + 1 := by rw [has.ref, bump_self]
    unfold State.put
    dsimp only
    split
    case isTrue last =>
      have none : refs ip = 0 := by omega
      refine .unbump (has.write used rfl rfl none.symm (has.locked ip) (fun pos => ?_)
        (fun held => ?_) fun type => ?_)
      · omega
      · rw [free] at held
        cases held
      · exact absurd rfl type
    case isFalse stays =>
      have less : (s.icache ip).ref - 1 = refs ip := by omega
      refine .unbump (has.setRef less rfl (fun _ jp other used' same => ?_)
        (fun _ valid => has.coherent ip used valid) (fun held => ?_) fun _ _ valid nlink => ?_)
      · exact other (has.unique jp ip used' used same.1 same.2)
      · rw [free] at held
        cases held
      · rw [← (has.coherent ip used valid).1] at nlink
        have more : 0 < refs ip := by
          by_contra none
          exact stays ⟨valid, nlink, by omega⟩
        exact ⟨more, rfl, rfl, valid⟩

theorem iunlockput_spec (has : Has sound files (bump refs ip) locked ops s) :
    wp (Benign short) (iunlockput ip)
      (fun _ t => Has sound files refs (Function.update locked ip false) ops t) s := by
  simp only [iunlockput, wp_bind]
  refine wp_mono (iunlock_spec has) fun _ t unlocked => ?_
  exact wp_mono (iput_spec unlocked) fun _ u dropped => dropped.2

/-- `ilock` and later `iunlockput`. -/
theorem iunlockput_locked (free : locked ip = false)
    (has : Has sound files (bump refs ip) (Function.update locked ip true) ops s) :
    wp (Benign short) (iunlockput ip) (fun _ t => Has sound files refs locked ops t) s := by
  have spec : wp (Benign short) (iunlockput ip) _ s := iunlockput_spec has
  rwa [unlock_lock free] at spec

theorem iunlock_locked (free : locked ip = false)
    (has : Has sound files refs (Function.update locked ip true) ops s) :
    wp (Benign short) (iunlock ip) (fun _ t => Has sound files refs locked ops t) s := by
  have unlocked : wp (Benign short) (iunlock ip) _ s := iunlock_spec has
  rwa [unlock_lock free] at unlocked

/-- A locked inode changes, but not its type. -/
theorem update_spec {change : Dinode → Dinode} (held : locked ip = true)
    (type : ∀ node, (change node).type = node.type)
    (has : Has sound files refs locked ops s) :
    wp (Benign short) (update ip change) (fun _ t => Has sound files refs locked ops t) s := by
  obtain ⟨used, valid⟩ := has.filled ip held
  have node := has.coherent ip used valid
  simp only [update, wp_modify, State.setNode, State.iupdate, State.setIp_setDisk,
    State.setIp_icache, Function.update_self]
  refine .same (has.write used rfl rfl (has.ref ip) (has.locked ip) (fun _ _ => ⟨rfl, ?_⟩)
    (fun _ => ⟨used, valid⟩) fun _ _ => ⟨used, valid⟩)
  rw [type]
  exact node.2

/-! ## What a step leaves alone -/

/-- The disk is the same, and so is what the entries in use are copies of. -/
structure Calm (refs : Ip → Nat) (s t : State) : Prop where
  disk : t.disk = s.disk
  ninodes : t.ninodes = s.ninodes
  dev : ∀ ip, 0 < refs ip → (t.icache ip).dev = (s.icache ip).dev
  inum : ∀ ip, 0 < refs ip → (t.icache ip).inum = (s.icache ip).inum
  valid : ∀ ip, 0 < refs ip → (s.icache ip).valid = true → (t.icache ip).valid = true

theorem Calm.trans {t u : State} (one : Calm refs s t) (two : Calm refs t u) :
    Calm refs s u :=
  ⟨two.disk.trans one.disk, two.ninodes.trans one.ninodes,
    fun ip used => (two.dev ip used).trans (one.dev ip used),
    fun ip used => (two.inum ip used).trans (one.inum ip used),
    fun ip used valid => two.valid ip used (one.valid ip used valid)⟩

theorem Calm.mono {refs' : Ip → Nat} {t : State} (calm : Calm refs s t)
    (fewer : ∀ ip, 0 < refs' ip → 0 < refs ip) : Calm refs' s t :=
  ⟨calm.disk, calm.ninodes, fun ip used => calm.dev ip (fewer ip used),
    fun ip used => calm.inum ip (fewer ip used), fun ip used => calm.valid ip (fewer ip used)⟩

theorem Calm.setIp (refs : Ip → Nat) {inode : Inode}
    (same : 0 < refs ip → inode.dev = (s.icache ip).dev ∧ inode.inum = (s.icache ip).inum ∧
      ((s.icache ip).valid = true → inode.valid = true)) : Calm refs s (s.setIp ip inode) := by
  have other {jp : Ip} (differ : jp ≠ ip) : (s.setIp ip inode).icache jp = s.icache jp := by
    simp [Function.update_of_ne differ]
  have here : (s.setIp ip inode).icache ip = inode := by simp
  refine ⟨rfl, rfl, fun jp used => ?_, fun jp used => ?_, fun jp used valid => ?_⟩
  all_goals by_cases differ : jp = ip
  · subst differ
    rw [here]
    exact (same used).1
  · rw [other differ]
  · subst differ
    rw [here]
    exact (same used).2.1
  · rw [other differ]
  · subst differ
    rw [here]
    exact (same used).2.2 valid
  · rw [other differ]
    exact valid

/-- The entry that `iget` returns is of the inode it is asked for. -/
theorem iget_calm (dev inum : Nat) (has : Has sound files refs locked ops s) :
    wp (fun _ => True) (iget dev inum)
      (fun ip t => (t.icache ip).dev = dev ∧ (t.icache ip).inum = inum ∧ Calm refs s t) s := by
  simp only [iget, wp_bind, wp_get]
  have result := igetLoop_cases s.icache dev inum (List.finRange ninode) none
    (fun _ none => by cases none)
  cases found : igetLoop s.icache dev inum (List.finRange ninode) none with
  | cached ip =>
    rw [found] at result
    simp only [wp_bind, wp_set, wp_pure, State.setIp_icache, Function.update_self]
    exact ⟨result.2.1, result.2.2, .setIp refs fun _ => ⟨rfl, rfl, id⟩⟩
  | empty ip =>
    rw [found] at result
    simp only [wp_bind, wp_set, wp_pure, State.setIp_icache, Function.update_self]
    refine ⟨trivial, trivial, .setIp refs fun used => ?_⟩
    rw [← has.ref, result.1] at used
    cases used
  | full => simp only [wp_throw]

theorem ilock_calm (refs : Ip → Nat) (s : State) (ip : Ip) :
    wp (fun _ => True) (ilock ip)
      (fun _ t => (t.icache ip).valid = true ∧ Calm refs s t) s := by
  simp only [ilock, acquiresleep, fill, wp_bind, wp_get]
  split
  · trivial
  · simp only [wp_bind, wp_get]
    split
    · trivial
    · simp only [wp_set, State.setIp_icache, Function.update_self]
      split
      case isTrue valid =>
        simp only [wp_pure, State.setIp_icache, Function.update_self]
        exact ⟨valid, .setIp refs fun _ => ⟨rfl, rfl, id⟩⟩
      case isFalse =>
        simp only [wp_bind, wp_set, State.setIp_setIp]
        split
        · trivial
        · simp only [wp_pure, State.setIp_icache, Function.update_self]
          exact ⟨trivial, .setIp refs fun _ => ⟨rfl, rfl, fun _ => rfl⟩⟩

/-- A free inode is allocated on disk; nothing refers to it yet. -/
theorem Has.allocate (has : Has sound files refs locked ops s) {dev inum : Nat}
    (free : (s.disk dev inum).type = .free) (node : Dinode) :
    Has False files refs locked ops (s.setDisk dev inum node) := by
  refine ⟨has.files, has.ref, has.locked, has.outstanding, has.unique, fun ip used valid => ?_,
    has.filled, False.elim⟩
  have coherent := has.coherent ip used valid
  have away : ¬ ((s.icache ip).dev = dev ∧ (s.icache ip).inum = inum) := by
    rintro ⟨rfl, rfl⟩
    rw [coherent.1] at coherent
    exact coherent.2 free
  rw [State.setDisk_icache, State.setDisk_of_ne _ _ away]
  exact coherent

/-- `ialloc` and the `ilock` after it. -/
theorem ialloc_spec (dev : Nat) (type : FileType) (full : unused refs = 0 → short)
    (has : Has sound files refs locked ops s) :
    wp (Benign short) (ialloc dev type)
      (fun ip t => wp (Benign short) (ilock ip)
        (fun _ u => locked ip = false ∧
          Has sound files (bump refs ip) (Function.update locked ip true) ops u) t) s := by
  simp only [ialloc, wp_bind, wp_get]
  split
  · exact .of_other (by decide)
  case h_2 inum found =>
    have free : (s.disk dev inum).type = .free := by
      have chosen := List.find?_some found
      simp only [decide_eq_true_eq] at chosen
      exact chosen.2
    have allocated := has.allocate free ⟨type, 0, 0, 0, [], []⟩
    simp only [wp_bind, wp_set]
    refine wp_mono (wp_and (iget_spec dev inum full allocated) (iget_calm dev inum allocated))
      fun ip t got => ?_
    obtain ⟨got, isDev, isInum, calm⟩ := got
    refine wp_mono (wp_and (ilock_spec got) (ilock_calm (bump refs ip) t ip))
      fun _ u acquired => ?_
    obtain ⟨⟨unlocked, acquired⟩, valid, still⟩ := acquired
    refine ⟨unlocked, { acquired with kept := fun holds dev' inum' typed unlinked => ?_ }⟩
    by_cases place : dev' = dev ∧ inum' = inum
    · obtain ⟨rfl, rfl⟩ := place
      refine ⟨ip, by simp, ?_, ?_, valid⟩
      · rw [still.dev ip (by simp), isDev]
      · rw [still.inum ip (by simp), isInum]
    · rw [still.disk, calm.disk, State.setDisk_of_ne _ _ place] at typed unlinked
      obtain ⟨jp, used, isDev', isInum', valid'⟩ := has.kept holds dev' inum' typed unlinked
      have later : 0 < bump refs ip jp := pos_of_bump ip used
      refine ⟨jp, later, ?_, ?_, still.valid jp later (calm.valid jp used valid')⟩
      · rw [still.dev jp later, calm.dev jp used]
        exact isDev'
      · rw [still.inum jp later, calm.inum jp used]
        exact isInum'

/-! ## Directories and paths -/

theorem dirlookup_spec (name : Name) (full : unused refs = 0 → short)
    (has : Has sound files refs locked ops s) :
    wp (Benign short) (dirlookup dp name)
      (fun found t => match found with
        | none => Has sound files refs locked ops t
        | some (ip, _) => Has sound files (bump refs ip) locked ops t) s := by
  simp only [dirlookup, nodeOf, devOf, wp_bind, wp_get, wp_pure]
  split
  · exact .of_other (by decide)
  · split
    · exact has
    · simp only [wp_bind, wp_get, wp_pure]
      exact iget_spec _ _ full has

theorem dirlink_spec (name : Name) (inum : Nat) (full : unused refs = 0 → short)
    (held : locked dp = true) (has : Has sound files refs locked ops s) :
    wp (Benign short) (dirlink dp name inum) (fun _ t => Has sound files refs locked ops t) s := by
  simp only [dirlink, wp_bind]
  refine wp_mono (dirlookup_spec name full has) fun found t looked => ?_
  cases found with
  | some entry =>
      simp only [wp_bind, wp_pure]
      exact wp_mono (iput_spec looked) fun _ u dropped => dropped.2
  | none =>
      simp only [nodeOf, wp_bind, wp_get, wp_pure]
      split
      · exact .of_other (by decide)
      · simp only [wp_bind, wp_pure]
        exact update_spec held (fun _ => rfl) looked

/-- What a path walk returns. -/
def Walked (sound : Prop) (files : Files) (refs : Ip → Nat) (locked : Locks) (ops : Nat)
    (found : Option (Ip × Name)) (t : State) : Prop :=
  match found with
  | none => Has sound files refs locked ops t
  | some (ip, _) => Has sound files (bump refs ip) locked ops t

theorem namexFrom_spec (nameiparent : Bool) (names : List Name) (full : unused refs ≤ 1 → short)
    (has : Has sound files (bump refs ip) locked ops s) :
    wp (Benign short) (namexFrom nameiparent ip names) (Walked sound files refs locked ops) s := by
  -- the directory takes an entry, and what is found in it another
  have full' (jp : Ip) (none : unused (bump refs jp) = 0) : short :=
    full (unused_le_of_bump none.le)
  induction names generalizing ip s with
  | nil =>
      simp only [namexFrom]
      split
      · simp only [wp_bind, wp_pure]
        exact wp_mono (iput_spec has) fun _ t dropped => dropped.2
      · exact has
  | cons name rest ih =>
      simp only [namexFrom, wp_bind]
      refine wp_mono (ilock_spec has) fun _ t acquired => ?_
      obtain ⟨free, acquired⟩ := acquired
      simp only [nodeOf, wp_bind, wp_get, wp_pure]
      split
      · simp only [wp_bind, wp_pure]
        exact iunlockput_locked free acquired
      · split
        · simp only [wp_bind, wp_pure]
          exact iunlock_locked free acquired
        · rw [wp_bind]
          refine wp_mono (dirlookup_spec name (full' ip) acquired) fun found u looked => ?_
          cases found with
          | none =>
              simp only [wp_bind, wp_pure]
              exact iunlockput_locked free looked
          | some entry =>
              simp only [wp_bind]
              change Has sound files (bump (bump refs ip) entry.1) _ ops u at looked
              rw [bump_comm] at looked
              exact wp_mono (iunlockput_locked free looked) fun _ v dropped => ih dropped

theorem namex_spec (path : List Char) (nameiparent : Bool) {cwd : Ip}
    (full : unused refs ≤ 1 → short) (has : Has sound files refs locked ops s)
    (used : 0 < refs cwd) :
    wp (Benign short) (namex cwd path nameiparent) (Walked sound files refs locked ops) s := by
  simp only [namex]
  split
  · simp only [wp_bind]
    exact wp_mono (iget_spec _ _ (fun none => full (none.le.trans (Nat.zero_le 1))) has)
      fun ip t got => namexFrom_spec _ _ full got
  · simp only [wp_bind]
    refine wp_mono (idup_spec has used) fun ip t got => ?_
    obtain ⟨rfl, got⟩ := got
    exact namexFrom_spec _ _ full got

/-! ## Calls on paths -/

theorem beginOp_spec (has : Has sound files refs locked ops s) :
    wp (Benign short) beginOp (fun _ t => Has sound files refs locked (ops + 1) t) s :=
  ⟨has.files, has.ref, has.locked, congrArg (· + 1) has.outstanding, has.unique, has.coherent,
    has.filled, has.kept⟩

theorem endOp_spec (has : Has sound files refs locked (ops + 1) s) :
    wp (Benign short) endOp (fun _ t => Has sound files refs locked ops t) s := by
  refine ⟨has.files, has.ref, has.locked, ?_, has.unique, has.coherent, has.filled, has.kept⟩
  change s.outstanding - 1 = ops
  rw [has.outstanding, Nat.add_sub_cancel]

theorem endWith_spec (value : Int) (has : Has sound files refs locked (ops + 1) s) :
    wp (Benign short) (endWith value) (fun _ t => Has sound files refs locked ops t) s := by
  simp only [endWith, wp_bind, wp_pure]
  exact endOp_spec has

theorem linkBad_spec (has : Has sound files (bump refs ip) locked (ops + 1) s) :
    wp (Benign short) (linkBad ip) (fun _ t => Has sound files refs locked ops t) s := by
  simp only [linkBad, wp_bind]
  refine wp_mono (ilock_spec has) fun _ t acquired => ?_
  refine wp_mono (update_spec (by simp) (fun _ => rfl) acquired.2) fun _ u updated => ?_
  refine wp_mono (iunlockput_locked acquired.1 updated) fun _ v dropped => ?_
  exact endWith_spec _ dropped

theorem linkTo_spec (new : List Char) {cwd : Ip} (full : unused refs ≤ 2 → short)
    (used : 0 < refs cwd)
    (has : Has sound files (bump refs ip) locked (ops + 1) s) :
    wp (Benign short) (linkTo cwd ip new) (fun _ t => Has sound files refs locked ops t) s := by
  have full' (few : unused (bump refs ip) ≤ 1) : short :=
    full (unused_le_of_bump few)
  simp only [linkTo, nameiparent, wp_bind]
  refine wp_mono (namex_spec new true full' has (pos_of_bump ip used)) fun found t walked => ?_
  cases found with
  | none => exact linkBad_spec walked
  | some entry =>
      obtain ⟨dp, name⟩ := entry
      change Has sound files (bump (bump refs ip) dp) locked (ops + 1) t at walked
      simp only [wp_bind]
      refine wp_mono (ilock_spec walked) fun _ u acquired => ?_
      obtain ⟨free, acquired⟩ := acquired
      simp only [devOf, inumOf, wp_bind, wp_get, wp_pure]
      split
      · simp only [wp_bind]
        refine wp_mono (iunlockput_locked free acquired) fun _ v dropped => ?_
        exact linkBad_spec dropped
      · simp only [wp_bind, wp_get, wp_pure]
        have full'' (none : unused (bump (bump refs ip) dp) = 0) : short :=
          full' (unused_le_of_bump none.le)
        refine wp_mono (dirlink_spec _ _ full'' (by simp) acquired) fun linked v written => ?_
        cases linked with
        | false =>
            simp only [wp_bind]
            refine wp_mono (iunlockput_locked free written) fun _ w dropped => ?_
            exact linkBad_spec dropped
        | true =>
            simp only [wp_bind]
            refine wp_mono (iunlockput_locked free written) fun _ w dropped => ?_
            refine wp_mono (iput_spec dropped) fun _ x put => ?_
            exact endWith_spec _ put.2

theorem sysLink_spec (old new : Path) {cwd : Ip} (full : unused refs ≤ 2 → short)
    (used : 0 < refs cwd)    (has : Has sound files refs locked ops s) :
    wp (Benign short) (sysLink cwd old new) (fun _ t => Has sound files refs locked ops t) s := by
  unfold sysLink
  split
  · simp only [wp_bind]
    refine wp_mono (beginOp_spec has) fun _ t begun => ?_
    refine wp_mono (namex_spec _ false (fun few => full (few.trans (Nat.le_succ 1))) begun used)
      fun found u walked => ?_
    cases found with
    | none => exact endWith_spec _ walked
    | some entry =>
        obtain ⟨ip, name⟩ := entry
        change Has sound files (bump refs ip) locked (ops + 1) u at walked
        simp only [wp_bind]
        refine wp_mono (ilock_spec walked) fun _ v acquired => ?_
        obtain ⟨free, acquired⟩ := acquired
        simp only [nodeOf, wp_bind, wp_get, wp_pure]
        split
        · simp only [wp_bind]
          refine wp_mono (iunlockput_locked free acquired) fun _ w dropped => ?_
          exact endWith_spec _ dropped
        · simp only [wp_bind]
          refine wp_mono (update_spec (by simp) (fun _ => rfl) acquired) fun _ w updated => ?_
          refine wp_mono (iunlock_locked free updated) fun _ x unlocked => ?_
          exact linkTo_spec _ full used unlocked
  · exact has

/-- Of two locked entries, the first is released. -/
theorem unlock_first (free : locked dp = false)
    (second : Function.update locked dp true ip = false) :
    Function.update (Function.update (Function.update locked dp true) ip true) dp false =
      Function.update locked ip true := by
  have differ : dp ≠ ip := by
    rintro rfl
    simp at second
  rw [Function.update_comm differ.symm, unlock_lock free]

/-- The first of two locks is held. -/
theorem lock_first (locked : Locks) (dp ip : Ip) :
    Function.update (Function.update locked dp true) ip true dp = true := by
  by_cases same : dp = ip
  · subst same
    simp
  · simp [Function.update_of_ne same]

theorem unlinkBad_spec (free : locked dp = false)
    (has : Has sound files (bump refs dp) (Function.update locked dp true) (ops + 1) s) :
    wp (Benign short) (unlinkBad dp) (fun _ t => Has sound files refs locked ops t) s := by
  simp only [unlinkBad, wp_bind]
  refine wp_mono (iunlockput_locked free has) fun _ t dropped => ?_
  exact endWith_spec _ dropped

theorem unlinkEntry_spec (off : Nat) (free : locked dp = false)
    (second : Function.update locked dp true ip = false)
    (has : Has sound files (bump (bump refs ip) dp)
      (Function.update (Function.update locked dp true) ip true) (ops + 1) s) :
    wp (Benign short) (unlinkEntry dp ip off) (fun _ t => Has sound files refs locked ops t) s := by
  have other : locked ip = false := by
    by_cases same : ip = dp
    · exact same ▸ free
    · rwa [Function.update_of_ne same] at second
  have finish {t : State} (has : Has sound files (bump (bump refs ip) dp)
      (Function.update (Function.update locked dp true) ip true) (ops + 1) t) :
      wp (Benign short) (do
        iunlockput dp
        update ip fun node => { node with nlink := node.nlink - 1 }
        iunlockput ip
        endWith 0) (fun _ t => Has sound files refs locked ops t) t := by
    simp only [wp_bind]
    refine wp_mono (iunlockput_spec has) fun _ u dropped => ?_
    rw [unlock_first free second] at dropped
    refine wp_mono (update_spec (by simp) (fun _ => rfl) dropped) fun _ v updated => ?_
    refine wp_mono (iunlockput_locked other updated) fun _ w put => ?_
    exact endWith_spec _ put
  simp only [unlinkEntry, nodeOf]
  simp only [wp_bind, wp_get, wp_pure]
  have parent := lock_first locked dp ip
  refine wp_mono (update_spec parent (fun _ => rfl) has) fun _ t updated => ?_
  split
  · rw [wp_bind]
    refine wp_mono (update_spec parent (fun _ => rfl) updated) fun _ u again => ?_
    exact finish again
  · exact finish updated

theorem sysUnlink_spec (path : Path) {cwd : Ip} (full : unused refs ≤ 1 → short)
    (used : 0 < refs cwd)    (has : Has sound files refs locked ops s) :
    wp (Benign short) (sysUnlink cwd path) (fun _ t => Has sound files refs locked ops t) s := by
  unfold sysUnlink
  split
  · exact has
  · simp only [wp_bind]
    refine wp_mono (beginOp_spec has) fun _ t begun => ?_
    refine wp_mono (namex_spec _ true full begun used) fun found u walked => ?_
    cases found with
    | none => exact endWith_spec _ walked
    | some entry =>
        obtain ⟨dp, name⟩ := entry
        change Has sound files (bump refs dp) locked (ops + 1) u at walked
        simp only [wp_bind]
        refine wp_mono (ilock_spec walked) fun _ v acquired => ?_
        obtain ⟨free, acquired⟩ := acquired
        split
        · exact unlinkBad_spec free acquired
        · rw [wp_bind]
          have full' (none : unused (bump refs dp) = 0) : short :=
            full (unused_le_of_bump none.le)
          refine wp_mono (dirlookup_spec name full' acquired) fun found w looked => ?_
          cases found with
          | none => exact unlinkBad_spec free looked
          | some entry =>
              obtain ⟨ip, off⟩ := entry
              change Has sound files (bump (bump refs dp) ip) _ (ops + 1) w at looked
              simp only [wp_bind]
              refine wp_mono (ilock_spec looked) fun _ x acquired => ?_
              obtain ⟨second, acquired⟩ := acquired
              simp only [nodeOf, wp_bind, wp_get, wp_pure]
              split
              · exact .of_other (by decide)
              · split
                · simp only [wp_bind]
                  refine wp_mono (iunlockput_locked second acquired) fun _ y dropped => ?_
                  exact unlinkBad_spec free dropped
                · rw [bump_comm] at acquired
                  exact unlinkEntry_spec off free second acquired

theorem createDots_spec (full : unused refs = 0 → short) (parent : locked dp = true)
    (child : locked ip = true)    (has : Has sound files refs locked ops s) :
    wp (Benign short) (createDots dp ip) (fun _ t => Has sound files refs locked ops t) s := by
  simp only [createDots, inumOf, wp_bind]
  refine wp_mono (update_spec parent (fun _ => rfl) has) fun _ t updated => ?_
  simp only [wp_get, wp_pure]
  refine wp_mono (dirlink_spec _ _ full child updated) fun linked u written => ?_
  cases linked with
  | false => exact .of_other (by decide)
  | true =>
      simp only [wp_bind, wp_get, wp_pure]
      refine wp_mono (dirlink_spec _ _ full child written) fun linked v again => ?_
      cases linked with
      | false => exact .of_other (by decide)
      | true => exact again

/-- What `create` returns: nothing, or a locked inode with a reference. -/
def Created (sound : Prop) (files : Files) (refs : Ip → Nat) (locked : Locks) (ops : Nat)
    (found : Option Ip) (t : State) : Prop :=
  match found with
  | none => Has sound files refs locked ops t
  | some ip => locked ip = false ∧
      Has sound files (bump refs ip) (Function.update locked ip true) ops t

theorem createNew_spec (name : Name) (type : FileType) (major minor : Int)
    (full : unused refs ≤ 2 → short) (free : locked dp = false)
    (has : Has sound files (bump refs dp) (Function.update locked dp true) ops s) :
    wp (Benign short) (createNew dp name type major minor)
      (Created sound files refs locked ops) s := by
  have full' (few : unused (bump refs dp) ≤ 1) : short :=
    full (unused_le_of_bump few)
  simp only [createNew, devOf, wp_bind, wp_get, wp_pure]
  refine wp_mono (ialloc_spec _ _ (fun none => full' (none.le.trans (Nat.zero_le 1))) has)
    fun ip t allocated => ?_
  refine wp_mono allocated fun _ u acquired => ?_
  obtain ⟨second, acquired⟩ := acquired
  have full'' (none : unused (bump (bump refs ip) dp) = 0) : short := by
    rw [bump_comm] at none
    exact full' (unused_le_of_bump none.le)
  rw [bump_comm] at acquired
  have other : locked ip = false := by
    by_cases same : ip = dp
    · exact same ▸ free
    · rwa [Function.update_of_ne same] at second
  have finish {next : Bool → Sys (Option Ip)} {t : State}
      (has : Has sound files (bump (bump refs ip) dp)
        (Function.update (Function.update locked dp true) ip true) ops t)
      (refused : next false = throw .createDirlink)
      (made : next true = do iunlockput dp; pure (some ip)) :
      wp (Benign short) (do
        let inum ← inumOf ip
        let linked ← dirlink dp name inum
        next linked) (Created sound files refs locked ops) t := by
    simp only [inumOf, wp_bind, wp_get, wp_pure]
    refine wp_mono (dirlink_spec _ _ full'' (lock_first locked dp ip) has)
      fun linked u written => ?_
    cases linked with
    | false =>
        rw [refused]
        exact .of_other (by decide)
    | true =>
        rw [made]
        simp only [wp_bind, wp_pure]
        refine wp_mono (iunlockput_spec written) fun _ v dropped => ?_
        rw [unlock_first free second] at dropped
        exact ⟨other, dropped⟩
  refine wp_mono (update_spec (by simp) (fun _ => rfl) acquired) fun _ v updated => ?_
  split
  · rw [wp_bind]
    exact wp_mono (createDots_spec full'' (lock_first locked dp ip) (by simp) updated)
      fun _ w dots => finish dots (by rfl) (by rfl)
  · exact finish updated (by rfl) (by rfl)

theorem create_spec (path : List Char) (type : FileType) (major minor : Int) {cwd : Ip}
    (full : unused refs ≤ 2 → short) (used : 0 < refs cwd)
    (has : Has sound files refs locked ops s) :
    wp (Benign short) (create cwd path type major minor) (Created sound files refs locked ops)
      s := by
  have full' (few : unused refs ≤ 1) : short := full (few.trans (Nat.le_succ 1))
  simp only [create, nameiparent, wp_bind]
  refine wp_mono (namex_spec path true full' has used) fun found t walked => ?_
  cases found with
  | none => exact walked
  | some entry =>
      obtain ⟨dp, name⟩ := entry
      change Has sound files (bump refs dp) locked ops t at walked
      simp only [wp_bind]
      refine wp_mono (ilock_spec walked) fun _ u acquired => ?_
      obtain ⟨free, acquired⟩ := acquired
      have full'' (none : unused (bump refs dp) = 0) : short :=
        full' (unused_le_of_bump none.le)
      refine wp_mono (dirlookup_spec name full'' acquired) fun found v looked => ?_
      cases found with
      | none => exact createNew_spec _ _ _ _ full free looked
      | some entry =>
          obtain ⟨ip, off⟩ := entry
          change Has sound files (bump (bump refs dp) ip) _ ops v at looked
          rw [bump_comm] at looked
          simp only [wp_bind]
          refine wp_mono (iunlockput_locked free looked) fun _ w dropped => ?_
          refine wp_mono (ilock_spec dropped) fun _ x again => ?_
          obtain ⟨second, again⟩ := again
          simp only [nodeOf, wp_bind, wp_get, wp_pure]
          split
          · exact ⟨second, again⟩
          · simp only [wp_bind, wp_pure]
            exact iunlockput_locked second again

theorem makeNode_spec (path : Path) (type : FileType) (major minor : Int) {cwd : Ip}
    (full : unused refs ≤ 2 → short) (used : 0 < refs cwd)
    (has : Has sound files refs locked ops s) :
    wp (Benign short) (makeNode cwd path type major minor)
      (fun _ t => Has sound files refs locked ops t) s := by
  simp only [makeNode, wp_bind]
  refine wp_mono (beginOp_spec has) fun _ t begun => ?_
  split
  · exact endWith_spec _ begun
  · rw [wp_bind]
    refine wp_mono (create_spec _ type major minor full used begun) fun found u made => ?_
    cases found with
    | none => exact endWith_spec _ made
    | some ip =>
        simp only [wp_bind]
        refine wp_mono (iunlockput_locked made.1 made.2) fun _ v dropped => ?_
        exact endWith_spec _ dropped

theorem sysExec_spec (path : Path) (exec : Exec) {cwd : Ip} (full : unused refs ≤ 1 → short)
    (used : 0 < refs cwd)
    (has : Has sound files refs locked ops s) :
    wp (Benign short) (sysExec cwd path exec) (fun _ t => Has sound files refs locked ops t) s := by
  unfold sysExec
  split
  · exact has
  · simp only [wp_bind]
    refine wp_mono (beginOp_spec has) fun _ t begun => ?_
    refine wp_mono (namex_spec _ false full begun used) fun found u walked => ?_
    cases found with
    | none => exact endWith_spec _ walked
    | some entry =>
        obtain ⟨ip, name⟩ := entry
        change Has sound files (bump refs ip) locked (ops + 1) u at walked
        simp only [wp_bind]
        refine wp_mono (ilock_spec walked) fun _ v acquired => ?_
        obtain ⟨free, acquired⟩ := acquired
        cases exec <;> simp only [wp_bind]
        all_goals
          refine wp_mono (iunlockput_locked free acquired) fun _ w dropped => ?_
          exact endWith_spec _ dropped

end Xv6.Calls
