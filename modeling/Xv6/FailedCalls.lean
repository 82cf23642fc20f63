import Xv6.CallReferences
import Xv6.PathWalks

/-!
# What a failed call leaves behind

A call on paths that returns -1 gives back every reference it took, and no
inode loses its last one on the way, so that the disk and the process are as
before.  The exception is `open` with `O_CREATE`: it makes the file before it
has a `struct file` and a descriptor for it.
-/

namespace Xv6.Calls

open StateTriples
open LabelledRuns (run)
open Fs (FileType Name nofile nfile rootino dirlookupFrom elements)

variable {sound : Prop} {files : Files} {refs base : Ip → Nat} {locked : Locks} {ops : Nat}
  {o s : State} {ip dp : Ip} {p : Proc}

/-! ## Opening in vain -/

/-- The parent directory of the path is there and has no entry of that name. -/
def State.Absent (s : State) (cwd : Ip) (path : List Char) : Prop :=
  match parentOf s.disk (s.start cwd path).1 (s.start cwd path).2 (elements path) with
  | none => False
  | some (dp, name) => lookup s.disk (s.start cwd path).1 dp name = none

instance (s : State) (cwd : Ip) (path : List Char) : Decidable (s.Absent cwd path) := by
  unfold State.Absent
  split <;> infer_instance

/-- There is no `struct file`, or the process has no descriptor. -/
def Files.NoRoom (files : Files) (p : Proc) : Prop :=
  (∀ f, (files.ftable f).ref ≠ 0) ∨ ∀ fd, (files.proc p).ofile fd ≠ none

instance (files : Files) (p : Proc) : Decidable (files.NoRoom p) :=
  inferInstanceAs (Decidable (_ ∨ _))

/-- The call is an `open` that has to make a file and has no room to open it. -/
def State.CreatesInVain (s : State) (p : Proc) (cwd : Ip) : Call → Prop
  | .open (some path) omode =>
      omode &&& oCreate ≠ 0 ∧ s.Absent cwd path ∧ s.files.NoRoom p
  | _ => False

/-! ## Calls on a quiet disk -/

section Walk

variable (guarded : Protected base o)
include guarded

theorem iput_steady (covers : Covers base refs)
    (steady : Steady base o files (bump refs ip) locked ops s) :
    wp Any (iput ip) (fun _ t => Calm all s t ∧ Steady base o files refs locked ops t) s :=
  iput_kept covers (guarded _ _) steady

theorem iunlockput_steady (covers : Covers base refs) (free : locked ip = false)
    (steady : Steady base o files (bump refs ip) (Function.update locked ip true) ops s) :
    wp Any (iunlockput ip)
      (fun _ t => Calm all s t ∧ Steady base o files refs locked ops t) s :=
  iunlockput_kept covers free (guarded _ _) steady

omit guarded

theorem beginOp_steady (steady : Steady base o files refs locked ops s) :
    wp Any beginOp (fun _ t => Steady base o files refs locked (ops + 1) t) s :=
  wp_mono (wp_has (show wp Any beginOp (fun _ t => Calm all s t) s from
    ⟨rfl, rfl, fun _ _ => rfl, fun _ _ => rfl, fun _ _ valid => valid⟩) (beginOp_spec steady.has))
    fun _ _ begun => ⟨begun.2, steady.calm.trans (begun.1.of_all base)⟩

theorem endOp_steady (steady : Steady base o files refs locked (ops + 1) s) :
    wp Any endOp (fun _ t => Steady base o files refs locked ops t) s :=
  wp_mono (wp_has (show wp Any endOp (fun _ t => Calm all s t) s from
    ⟨rfl, rfl, fun _ _ => rfl, fun _ _ => rfl, fun _ _ valid => valid⟩) (endOp_spec steady.has))
    fun _ _ ended => ⟨ended.2, steady.calm.trans (ended.1.of_all base)⟩

/-- What the walk along a path returns; `dev` and `inum` say where it starts. -/
def WalkedFrom (base : Ip → Nat) (o : State) (files : Files) (refs : Ip → Nat) (locked : Locks)
    (ops : Nat) (parent : Bool) (dev inum : Nat) (names : List Name)
    (found : Option (Ip × Name)) (t : State) : Prop :=
  match found with
  | none => (parent = true → parentOf o.disk dev inum names = none) ∧
      Steady base o files refs locked ops t
  | some (ip, name) =>
      (parent = true → parentOf o.disk dev inum names = some ((t.icache ip).inum, name) ∧
        (t.icache ip).dev = dev) ∧
      Steady base o files (bump refs ip) locked ops t

theorem namex_steady (guarded : Protected base o) (path : List Char) (parent : Bool) {cwd : Ip}
    (kept : 0 < base cwd) (covers : Covers base refs)
    (steady : Steady base o files refs locked ops s) :
    wp Any (namex cwd path parent)
      (WalkedFrom base o files refs locked ops parent (o.start cwd path).1 (o.start cwd path).2
        (elements path)) s := by
  have walked := namex_resolved False (fun dev inum _ next _ => ⟨False.elim, guarded dev next⟩)
    False.elim path parent kept covers ⟨False.elim, guarded _ _⟩ steady
  refine wp_mono (wp_allow walked fun _ _ => trivial) fun found t resolved => ?_
  cases found with
  | none =>
      obtain ⟨nothing, ended⟩ := resolved
      refine ⟨fun isParent => ?_, ended⟩
      rwa [isParent] at nothing
  | some entry =>
      obtain ⟨found, sameDev, ended⟩ := resolved
      refine ⟨fun isParent => ⟨?_, sameDev⟩, ended⟩
      rwa [isParent] at found

end Walk

/-! ## Calls that fail -/

/-- A call that returns -1 left the disk and the processes alone. -/
def Clean (o : State) (value : Int) (t : State) : Prop :=
  value = -1 → t.disk = o.disk ∧ t.files.proc = o.files.proc

theorem wp_any {Result : Type} (program : Sys Result) (s : State) :
    wp Any program (fun _ _ => True) s := by
  unfold wp
  split <;> trivial

/-- Whatever a program does before the rest of a call. -/
theorem wp_skip {First Result : Type} {program : Sys First} {rest : First → Sys Result}
    {post : Result → State → Prop} {s : State}
    (next : ∀ result t, wp Any (rest result) post t) : wp Any (program >>= rest) post s := by
  rw [wp_bind]
  exact wp_mono (wp_any program s) fun result t _ => next result t

theorem endWith_zero (o s : State) : wp Any (endWith 0) (Clean o) s := by
  refine wp_skip fun _ _ failed => ?_
  cases failed

section Failures

variable {files : Files} {cwd : Ip} (same : files = o.files)
include same

theorem endWith_clean (value : Int) (steady : Steady base o files refs locked (ops + 1) s) :
    wp Any (endWith value) (Clean o) s := by
  simp only [endWith, wp_bind, wp_pure]
  refine wp_mono (endOp_steady steady) fun _ t ended _ => ⟨ended.calm.disk, ?_⟩
  rw [ended.has.files, same]

theorem sysChdir_clean (guarded : Protected base o) (path : Path) (kept : 0 < base cwd)
    (steady : Steady base o files base locked ops s) :
    wp Any (sysChdir p cwd path) (Clean o) s := by
  simp only [sysChdir, wp_bind]
  refine wp_mono (beginOp_steady steady) fun _ t begun => ?_
  split
  · exact endWith_clean same (-1) begun
  · rw [wp_bind]
    refine wp_mono (namex_steady guarded _ false kept (fun _ => id) begun)
      fun found u walked => ?_
    cases found with
    | none => exact endWith_clean same (-1) walked.2
    | some entry =>
        simp only [nodeOf, wp_bind, wp_get, wp_pure]
        refine wp_mono (ilock_steady walked.2) fun _ v acquired => ?_
        obtain ⟨free, -, acquired⟩ := acquired
        split
        · rw [wp_bind]
          exact wp_mono (iunlockput_steady guarded (fun _ => id) free acquired)
            fun _ w put => endWith_clean same (-1) put.2
        · refine wp_skip fun _ _ => wp_skip fun _ _ => wp_skip fun _ _ => ?_
          refine wp_skip fun _ _ => wp_skip fun _ _ failed => ?_
          cases failed

theorem sysUnlink_clean (guarded : Protected base o) (path : Path) (kept : 0 < base cwd)
    (steady : Steady base o files base locked ops s) :
    wp Any (sysUnlink cwd path) (Clean o) s := by
  have bad {dp : Ip} {t : State} (free : locked dp = false)
      (held : Steady base o files (bump base dp) (Function.update locked dp true) (ops + 1) t) :
      wp Any (unlinkBad dp) (Clean o) t := by
    simp only [unlinkBad, wp_bind]
    exact wp_mono (iunlockput_steady guarded (fun _ => id) free held)
      fun _ u put => endWith_clean same (-1) put.2
  unfold sysUnlink
  split
  · exact fun _ => ⟨steady.calm.disk, by rw [steady.has.files, same]⟩
  · simp only [wp_bind]
    refine wp_mono (beginOp_steady steady) fun _ t begun => ?_
    refine wp_mono (namex_steady guarded _ true kept (fun _ => id) begun)
      fun found u walked => ?_
    cases found with
    | none => exact endWith_clean same (-1) walked.2
    | some entry =>
        obtain ⟨dp, name⟩ := entry
        simp only [wp_bind]
        refine wp_mono (ilock_steady walked.2) fun _ v acquired => ?_
        obtain ⟨free, -, acquired⟩ := acquired
        split
        · exact bad free acquired
        · rw [wp_bind]
          refine wp_mono (dirlookup_steady name (Covers.bump (fun _ => id) dp) (by simp) acquired)
            fun found w looked => ?_
          cases found with
          | none =>
              obtain ⟨-, rfl⟩ := looked
              exact bad free acquired
          | some entry =>
              obtain ⟨ip, off⟩ := entry
              obtain ⟨-, -, -, looked⟩ := looked
              simp only [wp_bind]
              refine wp_mono (ilock_steady looked) fun _ x acquired => ?_
              obtain ⟨second, -, acquired⟩ := acquired
              simp only [nodeOf, wp_bind, wp_get, wp_pure]
              split
              · trivial
              · split
                · rw [wp_bind]
                  refine wp_mono (iunlockput_steady guarded (Covers.bump (fun _ => id) dp)
                    second acquired) fun _ y put => bad free put.2
                · refine wp_skip fun node _ => wp_skip fun _ _ => ?_
                  split
                  · refine wp_skip fun _ _ => wp_skip fun _ _ => wp_skip fun _ _ => ?_
                    exact wp_skip fun _ _ => endWith_zero o _
                  · refine wp_skip fun _ _ => wp_skip fun _ _ => ?_
                    exact wp_skip fun _ _ => endWith_zero o _

end Failures

/-- One link less. -/
def Dinode.lower (node : Dinode) : Dinode :=
  { node with nlink := node.nlink - 1 }

theorem setDisk_disk_congr {t : State} (same : t.disk = s.disk) (dev inum : Nat)
    (node : Dinode) : (t.setDisk dev inum node).disk = (s.setDisk dev inum node).disk := by
  simp [State.setDisk, same]

/-- The state `r` after `sys_link` has counted the new link to an inode. -/
structure Raised (base : Ip → Nat) (o : State) (ip : Ip) (r : State) : Prop where
  dev : ∀ jp, 0 < base jp → (r.icache jp).dev = (o.icache jp).dev
  inum : ∀ jp, 0 < base jp → (r.icache jp).inum = (o.icache jp).inum
  valid : ∀ jp, 0 < base jp → (o.icache jp).valid = true → (r.icache jp).valid = true
  disk : (r.setDisk (r.icache ip).dev (r.icache ip).inum
    (r.disk (r.icache ip).dev (r.icache ip).inum).lower).disk = o.disk
  ninodes : r.ninodes = o.ninodes

/-- What `update` changes: the inode on disk, and the copy of it. -/
structure Changed (s : State) (ip : Ip) (node : Dinode) (t : State) : Prop where
  disk : t.disk = (s.setDisk (s.icache ip).dev (s.icache ip).inum node).disk
  dev : ∀ jp, (t.icache jp).dev = (s.icache jp).dev
  inum : ∀ jp, (t.icache jp).inum = (s.icache jp).inum
  valid : ∀ jp, (t.icache jp).valid = (s.icache jp).valid
  node : (t.icache ip).node = node
  others : ∀ jp, jp ≠ ip → t.icache jp = s.icache jp
  ninodes : t.ninodes = s.ninodes

theorem update_changes {allowed : Halt → Prop} (s : State) (ip : Ip)
    (change : Dinode → Dinode) :
    wp allowed (update ip change) (fun _ t => Changed s ip (change (s.icache ip).node) t) s := by
  simp only [update, wp_modify, State.setNode, State.iupdate, State.setIp_setDisk,
    State.setIp_icache, Function.update_self]
  refine ⟨rfl, fun jp => ?_, fun jp => ?_, fun jp => ?_, by simp, fun jp differ => ?_, rfl⟩
  case refine_4 => simp [Function.update_of_ne differ]
  all_goals
    by_cases here : jp = ip
    · subst here
      simp
    · simp [Function.update_of_ne here]

section Links

variable {cwd : Ip} {r : State} (guarded : Protected base o) (same : files = o.files)
include guarded same

/-- The end `bad` of `sys_link` takes the link back. -/
theorem linkBad_clean (raised : Raised base o ip r)
    (steady : Steady (bump base ip) r files (bump base ip) locked (ops + 1) s) :
    wp Any (linkBad ip) (Clean o) s := by
  simp only [linkBad, wp_bind]
  refine wp_mono (ilock_steady steady) fun _ t acquired => ?_
  obtain ⟨free, -, acquired⟩ := acquired
  have node := acquired.node ip (by simp)
  have mine : 0 < bump base ip ip := by simp
  rw [acquired.calm.dev ip mine, acquired.calm.inum ip mine] at node
  refine wp_mono (wp_has (update_changes t ip _)
    (update_spec (by simp) (fun _ => rfl) acquired.has)) fun _ u updated => ?_
  obtain ⟨changed, has⟩ := updated
  have restored : Steady base o files (bump base ip) (Function.update locked ip true) (ops + 1)
      u := by
    refine ⟨has, ?_, ?_, fun jp kept => ?_, fun jp kept => ?_, fun jp kept valid => ?_⟩
    · rw [changed.disk, ← raised.disk, node, acquired.calm.dev ip mine,
        acquired.calm.inum ip mine]
      exact setDisk_disk_congr acquired.calm.disk _ _ _
    · rw [changed.ninodes, acquired.calm.ninodes, raised.ninodes]
    · rw [changed.dev, acquired.calm.dev jp (pos_of_bump ip kept), raised.dev jp kept]
    · rw [changed.inum, acquired.calm.inum jp (pos_of_bump ip kept), raised.inum jp kept]
    · rw [changed.valid]
      exact acquired.calm.valid jp (pos_of_bump ip kept) (raised.valid jp kept valid)
  exact wp_mono (iunlockput_steady guarded (fun _ => id) free restored)
    fun _ v put => endWith_clean same (-1) put.2

theorem linkTo_clean (new : List Char) (kept : 0 < base cwd) (raised : Raised base o ip r)
    (protected' : Protected (bump base ip) r)
    (steady : Steady (bump base ip) r files (bump base ip) locked (ops + 1) s) :
    wp Any (linkTo cwd ip new) (Clean o) s := by
  simp only [linkTo, nameiparent, wp_bind]
  refine wp_mono (namex_steady protected' new true (pos_of_bump ip kept) (fun _ => id) steady)
    fun found t walked => ?_
  cases found with
  | none => exact linkBad_clean guarded same raised walked.2
  | some entry =>
      obtain ⟨dp, name⟩ := entry
      simp only [wp_bind]
      refine wp_mono (ilock_steady walked.2) fun _ u acquired => ?_
      obtain ⟨free, -, acquired⟩ := acquired
      have failed {v : State} (steady : Steady (bump base ip) r files (bump (bump base ip) dp)
          (Function.update locked dp true) (ops + 1) v) :
          wp Any (iunlockput dp >>= fun _ => linkBad ip) (Clean o) v := by
        rw [wp_bind]
        exact wp_mono (iunlockput_steady protected' (fun _ => id) free steady)
          fun _ w put => linkBad_clean guarded same raised put.2
      simp only [devOf, inumOf, wp_bind, wp_get, wp_pure]
      split
      · exact failed acquired
      · simp only [dirlink, wp_bind, wp_get, wp_pure]
        refine wp_mono (dirlookup_steady name (Covers.bump (fun _ => id) dp) (by simp) acquired)
          fun found v looked => ?_
        cases found with
        | some entry =>
            obtain ⟨jp, off⟩ := entry
            obtain ⟨-, -, -, looked⟩ := looked
            simp only [wp_bind, wp_pure]
            exact wp_mono (iput_steady protected' (Covers.bump (fun _ => id) dp) looked)
              fun _ w put => wp_bind.mp (failed put.2)
        | none =>
            simp only [nodeOf, wp_bind, wp_get, wp_pure]
            split
            · trivial
            · refine wp_skip fun _ _ => ?_
              refine wp_skip fun _ _ => wp_skip fun _ _ => ?_
              exact endWith_zero o _

omit guarded same in
theorem Calm.refl (refs : Ip → Nat) (s : State) : Calm refs s s :=
  ⟨rfl, rfl, fun _ _ => rfl, fun _ _ => rfl, fun _ _ valid => valid⟩

omit guarded same in
/-- The link that `sys_link` counts, taken back, leaves the disk as it was. -/
theorem raised_of_changed {t : State} (steady : Steady base o files (bump base ip)
    (Function.update locked ip true) ops s)
    (changed : Changed s ip { (s.icache ip).node with nlink := (s.icache ip).node.nlink + 1 } t) :
    Raised base o ip t := by
  refine ⟨fun jp kept => ?_, fun jp kept => ?_, fun jp kept valid => ?_, ?_, ?_⟩
  · rw [changed.dev, steady.calm.dev jp kept]
  · rw [changed.inum, steady.calm.inum jp kept]
  · rw [changed.valid]
    exact steady.calm.valid jp kept valid
  · have node := steady.node ip (by simp)
    have lowered : (t.disk (s.icache ip).dev (s.icache ip).inum).lower = (s.icache ip).node := by
      rw [changed.disk, State.setDisk_self, Dinode.lower, Int.add_sub_cancel]
    rw [changed.dev, changed.inum, lowered, setDisk_disk_congr changed.disk, node,
      ← steady.calm.disk]
    funext dev inum
    by_cases place : dev = (s.icache ip).dev ∧ inum = (s.icache ip).inum
    · obtain ⟨rfl, rfl⟩ := place
      rw [State.setDisk_self]
    · rw [State.setDisk_of_ne _ _ place, State.setDisk_of_ne _ _ place]
  · rw [changed.ninodes, steady.calm.ninodes]

omit same in
/-- The call itself keeps the inode that it counts a link to. -/
theorem protected_of_changed {t : State} {node : Dinode}
    (steady : Steady base o files (bump base ip) (Function.update locked ip true) ops s)
    (changed : Changed s ip node t) :
    Protected (bump base ip) t := by
  intro dev inum type unlinked
  by_cases place : dev = (s.icache ip).dev ∧ inum = (s.icache ip).inum
  · exact ⟨ip, by simp, by rw [changed.dev, place.1], by rw [changed.inum, place.2]⟩
  · rw [changed.disk, State.setDisk_of_ne _ _ place, steady.calm.disk] at type unlinked
    obtain ⟨jp, kept, isDev, isInum⟩ := guarded dev inum type unlinked
    refine ⟨jp, pos_of_bump ip kept, ?_, ?_⟩
    · rw [changed.dev, steady.calm.dev jp kept, isDev]
    · rw [changed.inum, steady.calm.inum jp kept, isInum]

theorem sysLink_clean (old new : Path) (kept : 0 < base cwd)
    (steady : Steady base o files base locked ops s) :
    wp Any (sysLink cwd old new) (Clean o) s := by
  unfold sysLink
  split
  · simp only [wp_bind]
    refine wp_mono (beginOp_steady steady) fun _ t begun => ?_
    refine wp_mono (namex_steady guarded _ false kept (fun _ => id) begun)
      fun found u walked => ?_
    cases found with
    | none => exact endWith_clean same (-1) walked.2
    | some entry =>
        obtain ⟨ip, name⟩ := entry
        simp only [nodeOf, wp_bind, wp_get, wp_pure]
        refine wp_mono (ilock_steady walked.2) fun _ v acquired => ?_
        obtain ⟨free, -, acquired⟩ := acquired
        split
        · rw [wp_bind]
          exact wp_mono (iunlockput_steady guarded (fun _ => id) free acquired)
            fun _ w put => endWith_clean same (-1) put.2
        · simp only [wp_bind]
          refine wp_mono (wp_has (update_changes v ip _)
            (update_spec (by simp) (fun _ => rfl) acquired.has)) fun _ w updated => ?_
          obtain ⟨changed, has⟩ := updated
          have counted : Steady (bump base ip) w files (bump base ip) _ (ops + 1) w :=
            ⟨has, .refl _ w⟩
          refine wp_mono (iunlock_steady free counted) fun _ x unlocked => ?_
          exact linkTo_clean guarded same _ kept (raised_of_changed acquired changed)
            (protected_of_changed guarded acquired changed) unlocked.2
  · exact fun _ => ⟨steady.calm.disk, by rw [steady.has.files, same]⟩

end Links

/-! ## Creating a file -/

/-- Only one entry and its inode changed. -/
structure Elsewhere (dp : Ip) (s t : State) : Prop where
  others : ∀ jp, jp ≠ dp → t.icache jp = s.icache jp
  dev : (t.icache dp).dev = (s.icache dp).dev
  inum : (t.icache dp).inum = (s.icache dp).inum
  disk : ∀ dev inum, ¬ (dev = (s.icache dp).dev ∧ inum = (s.icache dp).inum) →
    t.disk dev inum = s.disk dev inum

theorem Elsewhere.trans {t u : State} (one : Elsewhere dp s t) (two : Elsewhere dp t u) :
    Elsewhere dp s u := by
  refine ⟨fun jp differ => ?_, two.dev.trans one.dev, two.inum.trans one.inum,
    fun dev inum away => ?_⟩
  · rw [two.others jp differ, one.others jp differ]
  · rw [two.disk dev inum (by rwa [one.dev, one.inum]), one.disk dev inum away]

theorem Changed.elsewhere {node : Dinode} {t : State} (changed : Changed s dp node t) :
    Elsewhere dp s t := by
  refine ⟨changed.others, changed.dev dp, changed.inum dp, fun dev inum away => ?_⟩
  rw [changed.disk, State.setDisk_of_ne _ _ away]

theorem iput_elsewhere (s : State) (dp : Ip) :
    wp Any (iput dp) (fun _ t => Elsewhere dp s t) s := by
  rw [wp_iput]
  split
  · trivial
  unfold State.put
  dsimp only
  split
  · refine ⟨fun jp differ => ?_, ?_, ?_, fun dev inum away => ?_⟩
    · simp [Function.update_of_ne differ]
    · simp
    · simp
    · rw [State.setIp_disk, State.setDisk_of_ne _ _ away]
  · refine ⟨fun jp differ => ?_, ?_, ?_, fun dev inum away => rfl⟩
    · simp [Function.update_of_ne differ]
    · simp
    · simp

theorem iunlockput_elsewhere (s : State) (dp : Ip) :
    wp Any (iunlockput dp) (fun _ t => Elsewhere dp s t) s := by
  simp only [iunlockput, iunlock, releasesleep, wp_bind, wp_get]
  split
  · trivial
  · simp only [wp_modify]
    refine wp_mono (iput_elsewhere _ dp) fun _ t put => Elsewhere.trans ?_ put
    refine ⟨fun jp differ => ?_, ?_, ?_, fun dev inum away => rfl⟩
    · simp [Function.update_of_ne differ]
    · simp
    · simp

/-- `dirlink` that succeeds changes the directory only. -/
theorem dirlink_elsewhere (s : State) (dp : Ip) (name : Name) (inum : Nat) :
    wp Any (dirlink dp name inum) (fun linked t => linked = true → Elsewhere dp s t) s := by
  simp only [dirlink, dirlookup, nodeOf, wp_bind, wp_get, wp_pure]
  split
  · trivial
  · split
    · simp only [wp_bind, wp_get, wp_pure]
      split
      · trivial
      · rw [wp_bind]
        exact wp_mono (update_changes s dp _) fun _ t changed _ => changed.elsewhere
    · simp only [devOf, wp_bind, wp_get, wp_pure]
      refine wp_mono (wp_any _ s) fun jp t _ => ?_
      refine wp_mono (wp_any _ t) fun _ u _ failed => ?_
      cases failed

/-- A file that was not there before, with a link. -/
structure Fresh (o : State) (dev inum : Nat) (ip : Ip) (s : State) : Prop where
  isDev : (s.icache ip).dev = dev
  isInum : (s.icache ip).inum = inum
  before : (o.disk dev inum).type = .free
  type : (s.disk dev inum).type = .file
  linked : (s.icache ip).node.nlink ≠ 0

theorem Fresh.elsewhere {dev inum : Nat} {t : State} (fresh : Fresh o dev inum ip s)
    (differ : ip ≠ dp) (away : ¬ (dev = (s.icache dp).dev ∧ inum = (s.icache dp).inum))
    (elsewhere : Elsewhere dp s t) : Fresh o dev inum ip t := by
  have entry := elsewhere.others ip differ
  refine ⟨entry ▸ fresh.isDev, entry ▸ fresh.isInum, fresh.before, ?_, entry ▸ fresh.linked⟩
  rw [elsewhere.disk dev inum away]
  exact fresh.type

theorem createNew_fresh (name : Name) (major minor : Int)
    (steady : Steady base o files (bump base dp) (Function.update locked dp true) ops s) :
    wp Any (createNew dp name .file major minor)
      (fun found t => ∃ ip dev inum, found = some ip ∧ Fresh o dev inum ip t) s := by
  simp only [createNew, ialloc, devOf, wp_bind, wp_get, wp_pure]
  split
  · trivial
  case h_2 inum found =>
    have free : (s.disk (s.icache dp).dev inum).type = .free := by
      have chosen := List.find?_some found
      simp only [decide_eq_true_eq] at chosen
      exact chosen.2
    have allocated := steady.has.allocate free ⟨.file, 0, 0, 0, [], []⟩
    simp only [wp_bind, wp_set]
    refine wp_mono (wp_and (iget_calm _ inum allocated)
      (iget_spec _ inum (fun _ => trivial) allocated)) fun ip t got => ?_
    obtain ⟨⟨isDev, isInum, calm⟩, got⟩ := got
    refine wp_mono (wp_has (ilock_calm all t ip) (ilock_spec got)) fun _ u acquired => ?_
    obtain ⟨⟨-, still⟩, unlocked, acquired⟩ := acquired
    have differ : ip ≠ dp := by
      rintro rfl
      simp at unlocked
    refine wp_mono (wp_has (update_changes u ip _)
      (update_spec (by simp) (fun _ => rfl) acquired)) fun _ v updated => ?_
    obtain ⟨changed, has⟩ := updated
    have used : 0 < bump (bump base dp) ip ip := by simp
    have parent : 0 < bump (bump base dp) ip dp := pos_of_bump ip (by simp)
    have uDev : (u.icache ip).dev = (s.icache dp).dev := by
      rw [still.dev ip Nat.one_pos, isDev]
    have uInum : (u.icache ip).inum = inum := by rw [still.inum ip Nat.one_pos, isInum]
    have node : (u.icache ip).node = ⟨.file, 0, 0, 0, [], []⟩ := by
      obtain ⟨copy, -⟩ := acquired.coherent ip used (acquired.filled ip (by simp)).2
      rw [copy, uDev, uInum, still.disk, calm.disk, State.setDisk_self]
    have fresh : Fresh o (s.icache dp).dev inum ip v := by
      refine ⟨by rw [changed.dev, uDev], by rw [changed.inum, uInum], ?_, ?_, ?_⟩
      · rw [← steady.calm.disk]
        exact free
      · rw [changed.disk, uDev, uInum, State.setDisk_self, node]
      · rw [changed.node]
        exact Int.one_ne_zero
    have away : ¬ ((s.icache dp).dev = (v.icache dp).dev ∧ inum = (v.icache dp).inum) := by
      rintro ⟨sameDev, sameInum⟩
      refine differ (has.unique ip dp used parent ?_ ?_)
      · rw [fresh.isDev, sameDev]
      · rw [fresh.isInum, sameInum]
    simp only [reduceCtorEq, if_false, inumOf, wp_bind, wp_get, wp_pure]
    refine wp_mono (dirlink_elsewhere v dp name _) fun linked w written => ?_
    cases linked with
    | false => trivial
    | true =>
        simp only [wp_bind, wp_pure]
        refine wp_mono (iunlockput_elsewhere w dp) fun _ x put => ?_
        exact ⟨ip, _, inum, rfl, fresh.elsewhere differ away ((written rfl).trans put)⟩

theorem createNew_some (name : Name) (type : FileType) (major minor : Int) (s : State) :
    wp Any (createNew dp name type major minor) (fun found _ => found ≠ none) s := by
  have finish {next : Bool → Sys (Option Ip)} (ip : Ip) (t : State)
      (refused : next false = throw .createDirlink)
      (made : next true = do iunlockput dp; pure (some ip)) :
      wp Any (do
        let inum ← inumOf ip
        let linked ← dirlink dp name inum
        next linked) (fun found _ => found ≠ none) t := by
    refine wp_skip fun _ _ => wp_skip fun linked _ => ?_
    cases linked with
    | false =>
        rw [refused]
        trivial
    | true =>
        rw [made]
        exact wp_skip fun _ _ => Option.some_ne_none ip
  refine wp_skip fun _ _ => wp_skip fun ip _ => wp_skip fun _ _ => wp_skip fun _ _ => ?_
  split
  · exact wp_skip fun _ t => finish ip t (by rfl) (by rfl)
  · exact finish ip _ (by rfl) (by rfl)

/-- What `create` returns: nothing, an inode that was there, or a new one. -/
def Made (base : Ip → Nat) (o : State) (files : Files) (locked : Locks) (ops : Nat) (cwd : Ip)
    (path : List Char) (type : FileType) (found : Option Ip) (t : State) : Prop :=
  match found with
  | none => ¬ o.Absent cwd path ∧ Steady base o files base locked ops t
  | some ip =>
      (¬ o.Absent cwd path ∧ locked ip = false ∧
        Steady base o files (bump base ip) (Function.update locked ip true) ops t) ∨
      (o.Absent cwd path ∧ (type = .file → locked ip = false ∧
        Has False files (bump base ip) (Function.update locked ip true) ops t ∧
        ∃ dev inum, Fresh o dev inum ip t))

theorem create_made (guarded : Protected base o) (path : List Char) (type : FileType)
    (major minor : Int) {cwd : Ip} (kept : 0 < base cwd)
    (steady : Steady base o files base locked ops s) :
    wp Any (create cwd path type major minor) (Made base o files locked ops cwd path type)
      s := by
  simp only [create, nameiparent, wp_bind]
  refine wp_mono (namex_steady guarded path true kept (fun _ => id) steady)
    fun found t walked => ?_
  cases found with
  | none =>
      refine ⟨?_, walked.2⟩
      rw [State.Absent, walked.1 rfl]
      exact id
  | some entry =>
      obtain ⟨dp, name⟩ := entry
      obtain ⟨parents, walked⟩ := walked
      obtain ⟨parents, isDev⟩ := parents rfl
      simp only [wp_bind]
      refine wp_mono (ilock_steady walked) fun _ u acquired => ?_
      obtain ⟨free, calm, acquired⟩ := acquired
      have absent_iff : o.Absent cwd path ↔
          lookup o.disk (u.icache dp).dev (u.icache dp).inum name = none := by
        rw [State.Absent, parents, calm.dev dp Nat.one_pos, calm.inum dp Nat.one_pos, isDev]
      refine wp_mono (dirlookup_steady name (Covers.bump (fun _ => id) dp) (by simp) acquired)
        fun found v looked => ?_
      cases found with
      | none =>
          obtain ⟨absent, rfl⟩ := looked
          have absent := absent_iff.mpr absent
          have spec := createNew_spec name type major minor (fun _ => trivial) free acquired.has
          by_cases isFile : type = .file
          · subst isFile
            refine wp_mono (wp_and (createNew_fresh name major minor acquired) spec)
              fun found w made => ?_
            obtain ⟨⟨ip, dev, inum, rfl, fresh⟩, unlocked, has⟩ := made
            exact .inr ⟨absent, fun _ => ⟨unlocked, has, dev, inum, fresh⟩⟩
          · refine wp_mono (createNew_some name type major minor v) fun found w made => ?_
            cases found with
            | none => exact absurd rfl made
            | some ip => exact .inr ⟨absent, fun file => absurd file isFile⟩
      | some entry =>
          obtain ⟨ip, off⟩ := entry
          obtain ⟨present, -, -, looked⟩ := looked
          have notAbsent : ¬ o.Absent cwd path := by
            rw [absent_iff, present]
            exact Option.some_ne_none _
          rw [bump_comm] at looked
          simp only [wp_bind]
          refine wp_mono (iunlockput_steady guarded (Covers.bump (fun _ => id) ip) free looked)
            fun _ w put => ?_
          refine wp_mono (ilock_steady put.2) fun _ x again => ?_
          obtain ⟨second, -, again⟩ := again
          simp only [nodeOf, wp_bind, wp_get, wp_pure]
          split
          · exact .inl ⟨notAbsent, second, again⟩
          · simp only [wp_bind, wp_pure]
            exact wp_mono (iunlockput_steady guarded (fun _ => id) second again)
              fun _ y dropped => ⟨notAbsent, dropped.2⟩

theorem makeNode_clean (guarded : Protected base o) (same : files = o.files) (path : Path)
    (type : FileType) (major minor : Int) {cwd : Ip} (kept : 0 < base cwd)
    (steady : Steady base o files base locked ops s) :
    wp Any (makeNode cwd path type major minor) (Clean o) s := by
  simp only [makeNode, wp_bind]
  refine wp_mono (beginOp_steady steady) fun _ t begun => ?_
  split
  · exact endWith_clean same (-1) begun
  · rw [wp_bind]
    refine wp_mono (create_made guarded _ type major minor kept begun) fun found u made => ?_
    cases found with
    | none => exact endWith_clean same (-1) made.2
    | some ip => exact wp_skip fun _ _ => endWith_zero o _

/-- What `sys_open` does with a locked inode that is not freed: the disk stays,
and the call fails when there is no room. -/
theorem openFile_calm {allowed : Halt → Prop} (omode : Nat) (held : locked ip = true)
    (has : Has False files (bump refs ip) locked ops s)
    (closed : ∀ f, (files.ftable f).ref = 0 → (files.ftable f).kind = .none)
    (stays : Stays refs ip s) :
    wp allowed (openFile p ip omode)
      (fun value t => t.disk = s.disk ∧ (value = -1 ↔ files.NoRoom p) ∧
        (value = -1 → t.files.proc = files.proc)) s := by
  simp only [openFile, filealloc, getFiles, wp_bind, wp_get, wp_pure, has.files]
  split
  case h_1 full =>
    simp only [endWith, endOp, wp_bind, wp_modify, wp_pure]
    refine wp_mono (wp_and (iunlockput_runs has held)
      (wp_has (iunlockput_calm has stays) (iunlockput_spec has))) fun _ t ended => ?_
    obtain ⟨-, calm, put⟩ := ended
    refine ⟨calm.disk, ?_, fun _ => by rw [put.files]⟩
    have none (f : Fp) : (files.ftable f).ref ≠ 0 := by
      have checked := List.find?_eq_none.mp full f (List.mem_finRange f)
      simpa using checked
    exact ⟨fun _ => .inl none, fun _ => trivial⟩
  case h_2 f found =>
    have unused : (files.ftable f).ref = 0 := by simpa using List.find?_some found
    have kind := closed f unused
    -- the other tables do not matter to the inode cache
    have swap (files' : Files) :
        Has False files' (bump refs ip) locked ops { s with files := files' } :=
      { has with files := rfl, kept := False.elim }
    simp only [setFiles, fdalloc, getFiles, wp_bind, wp_get, wp_modify, wp_pure]
    split
    case h_1 full =>
      simp only [fileclose, getFiles, setFiles, wp_bind, wp_get, wp_pure, Files.setFile,
        Function.update_self, kind]
      simp only [Nat.lt_irrefl, Nat.sub_self, if_false, wp_bind, wp_modify, wp_pure, endWith,
        endOp]
      refine wp_mono (wp_and (iunlockput_runs (swap _) held)
        (wp_has (iunlockput_calm (swap _) stays) (iunlockput_spec (swap _)))) fun _ t ended => ?_
      obtain ⟨-, calm, put⟩ := ended
      refine ⟨calm.disk, ?_, fun _ => by rw [put.files]⟩
      have none (fd : Fin nofile) : (files.proc p).ofile fd ≠ Option.none := by
        have checked := List.find?_eq_none.mp full fd (List.mem_finRange fd)
        simpa [Files.setFile] using checked
      exact ⟨fun _ => .inr none, fun _ => trivial⟩
    case h_2 fd found =>
      have free : (files.proc p).ofile fd = none := by
        simpa [Files.setFile] using List.find?_some found
      simp only [endOp, wp_bind, wp_get, wp_modify, wp_pure]
      refine wp_mono (wp_and (iunlock_runs (swap _) held) (iunlock_calm _ ip))
        fun _ t unlocked => ⟨unlocked.2.1.disk, ?_, ?_⟩
      · constructor
        · intro failed
          omega
        · rintro (noFile | noDescriptor)
          · exact absurd unused (noFile f)
          · exact absurd free (noDescriptor fd)
      · intro failed
        omega

/-- `sys_open` leaves nothing behind when it fails, unless it created a file. -/
theorem sysOpen_clean_iff (guarded : Protected base o) (same : files = o.files)
    (closed : ∀ f, (files.ftable f).ref = 0 → (files.ftable f).kind = .none) (path : Path)
    (omode : Nat) {cwd : Ip} (kept : 0 < base cwd)
    (steady : Steady base o files base locked ops s) :
    wp Any (sysOpen p cwd path omode)
      (fun value t => Clean o value t ↔ ¬ o.CreatesInVain p cwd (.open path omode)) s := by
  have failed {t : State} (steady : Steady base o files base locked (ops + 1) t)
      (notVain : ¬ o.CreatesInVain p cwd (.open path omode)) :
      wp Any (endWith (-1)) (fun value t => Clean o value t ↔
        ¬ o.CreatesInVain p cwd (.open path omode)) t :=
    wp_mono (endWith_clean same (-1) steady) fun _ _ clean => ⟨fun _ => notVain, fun _ => clean⟩
  have opened {ip : Ip} {t : State} (free : locked ip = false)
      (steady : Steady base o files (bump base ip) (Function.update locked ip true) (ops + 1) t)
      (notVain : ¬ o.CreatesInVain p cwd (.open path omode)) :
      wp Any (openFile p ip omode) (fun value t => Clean o value t ↔
        ¬ o.CreatesInVain p cwd (.open path omode)) t := by
    have valid := (steady.has.filled ip (by simp)).2
    refine wp_mono (openFile_calm omode (by simp) steady.has closed
      (steady.stays (guarded _ _) (fun _ => id) valid)) fun value u done => ?_
    refine ⟨fun _ => notVain, fun _ bad => ⟨?_, ?_⟩⟩
    · rw [done.1, steady.calm.disk]
    · rw [done.2.2 bad, same]
  unfold sysOpen
  split
  · refine ⟨fun _ => id, fun _ _ => ⟨steady.calm.disk, ?_⟩⟩
    rw [steady.has.files, same]
  case h_2 path =>
    simp only [wp_bind]
    refine wp_mono (beginOp_steady steady) fun _ t begun => ?_
    split
    case isTrue creating =>
      rw [wp_bind]
      refine wp_mono (create_made guarded path .file 0 0 kept begun) fun found u made => ?_
      cases found with
      | none => exact failed made.2 fun vain => made.1 vain.2.1
      | some ip =>
          rcases made with ⟨present, free, made⟩ | ⟨absent, made⟩
          · exact opened free made fun vain => present vain.2.1
          · obtain ⟨free, has, dev, inum, fresh⟩ := made rfl
            refine wp_mono (openFile_calm omode (by simp) has closed (.inr fresh.linked))
              fun value v done => ?_
            obtain ⟨disk, room, -⟩ := done
            have vain : o.CreatesInVain p cwd (.open (some path) omode) ↔ value = -1 := by
              rw [room, same]
              exact ⟨fun vain => vain.2.2, fun noRoom => ⟨creating, absent, noRoom⟩⟩
            rw [vain]
            refine ⟨fun clean bad => ?_, fun good bad => absurd bad good⟩
            have type := fresh.type
            rw [← disk, (clean bad).1, fresh.before] at type
            cases type
    case isFalse plain =>
      have notVain : ¬ o.CreatesInVain p cwd (.open (some path) omode) :=
        fun vain => plain vain.1
      rw [wp_bind]
      refine wp_mono (namex_steady guarded path false kept (fun _ => id) begun)
        fun found u walked => ?_
      cases found with
      | none => exact failed walked.2 notVain
      | some entry =>
          simp only [nodeOf, wp_bind, wp_get, wp_pure]
          refine wp_mono (ilock_steady walked.2) fun _ v acquired => ?_
          obtain ⟨free, -, acquired⟩ := acquired
          split
          · rw [wp_bind]
            exact wp_mono (iunlockput_steady guarded (fun _ => id) free acquired)
              fun _ w put => failed put.2 notVain
          · exact opened free acquired notVain

/-! ## Failed calls of a run -/

/-- The calls on the file system that may fail. -/
def Call.OnPaths : Call → Prop
  | .open .. | .link .. | .unlink _ | .mkdir _ | .mknod .. | .chdir _ => True
  | _ => False

/-- A call that returns -1 leaves the disk, and with it every inode and every
directory, and the current directories and descriptors as they were, exactly
unless it created a file that it could not open. -/
theorem clean_iff_of_run {disk : Nat → Nat → Dinode} {ninodes : Nat} {labels : List Label}
    {s t : State} {p : Proc} {cwd : Ip} {call : Call} {value : Int} (linked : Linked disk)
    (ran : run State.step (boot disk ninodes) labels = some s)
    (here : (s.files.proc p).cwd = some cwd) (onPaths : call.OnPaths)
    (returned : perform p cwd call s = .ok (value, t)) :
    Clean s value t ↔ ¬ s.CreatesInVain p cwd call := by
  have quiet : Quiet True s := quiet_of_run (fun _ => linked) ran
  obtain ⟨F, settled⟩ := quiet
  have owns := settled.owns
  have files := owns.files
  rw [files] at here
  have kept : 0 < F.refsOf cwd + 0 := Files.refsOf_pos here
  have guarded : Protected (fun ip => F.refsOf ip + 0) s := by
    intro dev inum type unlinked
    obtain ⟨ip, used, isDev, isInum, -⟩ := owns.has.kept trivial dev inum type unlinked
    exact ⟨ip, used, isDev, isInum⟩
  have steady : Steady (fun ip => F.refsOf ip + 0) s F (fun ip => F.refsOf ip + 0)
      (fun _ => false) 0 s :=
    ⟨{ owns.has with kept := False.elim }, .refl _ s⟩
  have clean (spec : wp Any (perform p cwd call) (Clean s) s)
      (notVain : ¬ s.CreatesInVain p cwd call) :
      Clean s value t ↔ ¬ s.CreatesInVain p cwd call :=
    ⟨fun _ => notVain, fun _ => post_of_wp spec returned⟩
  cases call with
  | «open» path omode =>
      have spec := sysOpen_clean_iff (p := p) guarded files.symm owns.ok.closed path omode kept
        steady
      have opened := post_of_wp spec returned
      exact opened
  | link old new => exact clean (sysLink_clean guarded files.symm old new kept steady) id
  | unlink path => exact clean (sysUnlink_clean files.symm guarded path kept steady) id
  | mkdir path => exact clean (makeNode_clean guarded files.symm path .dir 0 0 kept steady) id
  | mknod path major minor =>
      exact clean (makeNode_clean guarded files.symm path .dev major minor kept steady) id
  | chdir path => exact clean (sysChdir_clean files.symm guarded path kept steady) id
  | exec _ _ | dup _ | close _ | pipe _ _ | fork _ | exit => exact absurd onPaths id

local instance fillDescriptors_neZero : NeZero 64 := ⟨by decide⟩

local instance leavesInode_neZero : NeZero 50 := ⟨by decide⟩

/-- A process opens a file and fills its descriptors with it. -/
def fillDescriptors : List Label :=
  ⟨0, .open (some ['a']) 0x202⟩ :: List.replicate 15 ⟨0, .dup 0⟩

/-- Whether `open` of a new file fails after these calls, and leaves inode 3
where there was none. -/
def leavesInode (labels : List Label) : Bool :=
  match run State.step (boot emptyDisk 8) labels with
  | none => false
  | some s =>
      match perform 0 0 (.open (some ['b']) 0x202) s with
      | .error _ => false
      | .ok (value, t) =>
          value = -1 ∧ (s.disk rootdev 3).type = .free ∧ (t.disk rootdev 3).type = .file

theorem open_without_descriptor_not_clean :
    ∃ s t, run State.step (boot emptyDisk 8) fillDescriptors = some s ∧
      perform 0 0 (.open (some ['b']) 0x202) s = .ok (-1, t) ∧ ¬ Clean s (-1) t := by
  have computed : leavesInode fillDescriptors = true := by decide +kernel
  unfold leavesInode at computed
  split at computed
  case h_1 => cases computed
  case h_2 s ran =>
    split at computed
    case h_1 => cases computed
    case h_2 value t opened =>
      obtain ⟨rfl, before, after⟩ := of_decide_eq_true computed
      refine ⟨s, t, ran, opened, fun clean => ?_⟩
      rw [(clean rfl).1, before] at after
      cases after

theorem linked_emptyDisk : Linked emptyDisk := by
  intro dev inum type
  unfold emptyDisk at *
  split at type
  case isTrue root =>
    rw [if_pos root]
    exact Int.one_ne_zero
  case isFalse => exact absurd rfl type

/-- With the descriptors filled, `open` of the file itself fails and leaves nothing
behind. -/
theorem open_existing_clean :
    ∃ s t, run State.step (boot emptyDisk 8) fillDescriptors = some s ∧
      perform 0 0 (.open (some ['a']) 0) s = .ok (-1, t) ∧ Clean s (-1) t := by
  have computed : ((run State.step (boot emptyDisk 8) fillDescriptors).any fun s =>
      decide ((s.files.proc 0).cwd = some 0) &&
        match perform 0 0 (.open (some ['a']) 0) s with
        | .error _ => false
        | .ok (value, _) => decide (value = -1)) = true := by
    decide +kernel
  obtain ⟨s, ran, checked⟩ := (Option.any_eq_true _ _).mp computed
  obtain ⟨here, failed⟩ := Bool.and_eq_true_iff.mp checked
  split at failed
  case h_1 => cases failed
  case h_2 value t opened =>
    obtain rfl := of_decide_eq_true failed
    have onPaths : (Call.open (some ['a']) 0).OnPaths := trivial
    have exactly := clean_iff_of_run linked_emptyDisk ran (of_decide_eq_true here) onPaths opened
    exact ⟨s, t, ran, opened, exactly.mpr fun vain => absurd rfl vain.1⟩

end Xv6.Calls
