import Xv6.CallRuns
import Xv6.DanglingEntries
import Xv6.FailedCalls

/-!
# The limit on inodes in use

`NFILE` open files and `NPROC` current directories may be more inodes than the
`NINODE` entries of the inode cache.  A call refers to three inodes at most when it asks
for an entry, so that as long as current directories and open files leave three, `iget`
finds one.
-/

namespace Xv6.Calls

open StateTriples
open LabelledRuns (run)
open Fs (ninode nofile)

variable {sound : Prop} {locked : Locks} {ops : Nat} {s : State} {ip : Ip} {p : Proc}

/-- The inodes that current directories and open files refer to, each with its device. -/
def State.inodesInUse (s : State) : Finset (Nat × Nat) :=
  (Finset.univ.filter fun ip => 0 < s.files.refsOf ip).image
    fun ip => ((s.icache ip).dev, (s.icache ip).inum)

/-- Each inode in use takes one entry of the cache. -/
theorem card_inodesInUse
    (has : Has sound s.files (fun ip => s.files.refsOf ip + 0) locked ops s) :
    s.inodesInUse.card + unused (fun ip => s.files.refsOf ip + 0) = ninode := by
  have entries : s.inodesInUse.card =
      (Finset.univ.filter fun ip => 0 < s.files.refsOf ip).card := by
    refine Finset.card_image_of_injOn fun ip used jp used' same => ?_
    have used := (Finset.mem_filter.mp used).2
    have used' := (Finset.mem_filter.mp used').2
    obtain ⟨dev, inum⟩ := Prod.mk.inj same
    exact has.unique ip jp used used' dev inum
  have rest : unused (fun ip => s.files.refsOf ip + 0) =
      (Finset.univ.filter fun ip => ¬ 0 < s.files.refsOf ip).card := by
    refine congrArg Finset.card (Finset.filter_congr fun ip _ => ?_)
    simp [Nat.pos_iff_ne_zero]
  have all := Finset.card_filter_add_card_filter_not (s := (Finset.univ : Finset Ip))
    fun ip => 0 < s.files.refsOf ip
  rw [entries, rest, all]
  exact Finset.card_fin ninode

/-- Without a `struct file` or a descriptor, the end of `sys_open` fails. -/
theorem openFile_noRoom (omode : Nat) (noRoom : s.files.NoRoom p) :
    wp Any (openFile p ip omode) (fun value _ => value = -1) s := by
  have fails (t : State) : wp Any (endWith (-1)) (fun value _ => value = -1) t :=
    wp_skip fun _ _ => rfl
  simp only [openFile, filealloc, getFiles, wp_bind, wp_get, wp_pure]
  split
  case h_1 =>
    rw [wp_pure]
    exact wp_skip fun _ t => fails t
  case h_2 f found =>
    have free : (s.files.ftable f).ref = 0 := by simpa using List.find?_some found
    have taken (fd : Fin nofile) : (s.files.proc p).ofile fd ≠ none :=
      noRoom.resolve_left (fun inUse => inUse f free) fd
    have full : ((List.finRange nofile).find? fun fd =>
        ((s.files.proc p).ofile fd).isNone) = none := by
      refine List.find?_eq_none.mpr fun fd _ => ?_
      simpa using taken fd
    simp only [setFiles, fdalloc, getFiles, wp_bind, wp_get, wp_modify, wp_pure, Files.setFile,
      full]
    refine wp_mono (wp_any _ _) fun _ t _ => wp_mono (wp_any _ t) fun _ u _ => fails u

theorem sysOpen_noRoom {F : Files} {refs : Ip → Nat} {cwd : Ip} (path : Path) (omode : Nat)
    (used : 0 < refs cwd) (noRoom : F.NoRoom p) (has : Has sound F refs locked ops s) :
    wp Any (sysOpen p cwd path omode) (fun value _ => value = -1) s := by
  have opens {ip : Ip} {t : State} (files : t.files = F) :
      wp Any (openFile p ip omode) (fun value _ => value = -1) t :=
    openFile_noRoom omode (files ▸ noRoom)
  have fails (t : State) : wp Any (endWith (-1)) (fun value _ => value = -1) t :=
    wp_skip fun _ _ => rfl
  unfold sysOpen
  split
  · exact rfl
  case h_2 path =>
    rw [wp_bind]
    have begun : wp Any beginOp _ s := wp_has (wp_any _ s) (beginOp_spec has)
    refine wp_mono begun fun _ t begun => ?_
    split
    · have created := create_spec path .file 0 0 (fun _ => trivial) used begun.2
      rw [wp_bind]
      refine wp_mono (wp_has (wp_any _ t) created) fun found u made => ?_
      cases found with
      | none => exact fails u
      | some ip => exact opens made.2.2.files
    · have walked := namex_spec path false (fun _ => trivial) begun.2 used
      rw [wp_bind]
      refine wp_mono (wp_has (wp_any _ t) walked) fun found u walked => ?_
      cases found with
      | none => exact fails u
      | some entry =>
          obtain ⟨ip, name⟩ := entry
          simp only [nodeOf, wp_bind, wp_get, wp_pure]
          refine wp_mono (wp_has (wp_any _ u) (ilock_spec walked.2)) fun _ v acquired => ?_
          split
          · rw [wp_bind]
            exact wp_mono (wp_any _ v) fun _ w _ => fails w
          · exact opens acquired.2.2.files

/-- After every run of calls, as long as current directories and open files refer to 47
inodes at most, the next call finds an entry of the inode cache for every inode that it
looks up or allocates, and `open` returns -1 if there is no `struct file` or no
descriptor. -/
theorem noInodes_of_run {disk : Nat → Nat → Dinode} {ninodes : Nat} {labels : List Label}
    {cwd : Ip} (ran : run State.step (boot disk ninodes) labels = some s)
    (few : s.inodesInUse.card + 3 ≤ ninode) (alive : s.files.alive p = true)
    (here : (s.files.proc p).cwd = some cwd) :
    (∀ call, s.files.Answers call → perform p cwd call s ≠ .error .igetNoInodes) ∧
      ∀ path omode value t, s.files.NoRoom p →
        perform p cwd (.open path omode) s = .ok (value, t) → value = -1 := by
  obtain ⟨F, settled⟩ := quiet_of_run False.elim ran
  have files := settled.owns.files
  subst files
  have has := settled.owns.has
  have counted := card_inodesInUse has
  refine ⟨fun call answers panics => ?_, fun path omode value t noRoom returned => ?_⟩
  · have benign := allowed_of_wp
      (perform_spec call (fun few => few) answers alive here settled) panics
    have short := benign.2.2 rfl
    omega
  · have used : 0 < s.files.refsOf cwd + 0 := Files.refsOf_pos here
    have ended := post_of_wp (sysOpen_noRoom path omode used noRoom has) returned
    exact ended

local instance exhausted_neZero : NeZero 64 := ⟨by decide⟩

local instance exhausted_neZero' : NeZero 50 := ⟨by decide⟩

/-- Whether these calls leave entries, and `open` of a new file returns. -/
def exhausts (labels : List Label) : Bool :=
  match run State.step (boot emptyDisk 8) labels with
  | none => false
  | some s =>
      match perform 0 0 (.open (some ['b']) 0x202) s with
      | .error _ => false
      | .ok _ => s.inodesInUse.card + 3 ≤ ninode ∧ s.files.NoRoom 0 ∧ s.files.alive 0 ∧
          (s.files.proc 0).cwd = some 0

/-- A process with two inodes in use has filled its descriptors. -/
theorem fillDescriptors_noInodes :
    ∃ s t, run State.step (boot emptyDisk 8) fillDescriptors = some s ∧
      s.inodesInUse.card + 3 ≤ ninode ∧ s.files.NoRoom 0 ∧
      perform 0 0 (.open (some ['b']) 0x202) s = .ok (-1, t) ∧
      perform 0 0 (.link (some ['a']) (some ['b'])) s ≠ .error .igetNoInodes := by
  have computed : exhausts fillDescriptors = true := by decide +kernel
  unfold exhausts at computed
  split at computed
  case h_1 => cases computed
  case h_2 s ran =>
    split at computed
    case h_1 => cases computed
    case h_2 returned opened =>
      obtain ⟨few, noRoom, alive, here⟩ := of_decide_eq_true computed
      obtain ⟨found, fails⟩ := noInodes_of_run ran few alive here
      obtain ⟨value, t⟩ := returned
      have isBad := fails _ _ _ _ noRoom opened
      subst isBad
      exact ⟨s, t, ran, few, noRoom, opened, found _ trivial⟩

end Xv6.Calls

namespace Xv6.Fs

open LabelledRuns (run)

/-! ## Four processes with open files -/

/-- The name of the file number `k`. -/
def nameOf (k : Nat) : Name :=
  [Char.ofNat (48 + k / 70), Char.ofNat (48 + k % 70)]

theorem toNat_letter {k : Nat} (few : k < 70) : (Char.ofNat (48 + k)).toNat = 48 + k := by
  have valid : (48 + k).isValidChar := Or.inl (by omega)
  rw [Char.ofNat, dif_pos valid]
  rfl

theorem letter_ne {k : Nat} (few : k < 70) {c : Char} (below : c.toNat < 48) :
    Char.ofNat (48 + k) ≠ c := by
  rintro rfl
  rw [toNat_letter few] at below
  omega

theorem nameOf_injective {j k : Nat} (few : j < 4900) (few' : k < 4900)
    (same : nameOf j = nameOf k) : j = k := by
  simp only [nameOf, List.cons.injEq, and_true] at same
  have first := congrArg Char.toNat same.1
  have second := congrArg Char.toNat same.2
  rw [toNat_letter (by omega), toNat_letter (by omega)] at first
  rw [toNat_letter (by omega), toNat_letter (by omega)] at second
  omega

theorem plain_nameOf {k : Nat} (few : k < 4900) : Plain (nameOf k) (nameOf k) := by
  have first : Char.ofNat (48 + k / 70) ≠ '/' := letter_ne (by omega) (by decide)
  have second : Char.ofNat (48 + k % 70) ≠ '/' := letter_ne (by omega) (by decide)
  refine ⟨?_, ?_⟩
  · simpa [nameOf] using first
  · simp [elements, elementsFuel, skipelem, nameOf, first, second, dirsiz]

/-- A root directory with so many entries. -/
def rootWith (target : Nat → Inum) (k : Nat) : List Dirent :=
  ⟨1, ['.']⟩ :: ⟨1, ['.', '.']⟩ :: (List.range k).map fun j => ⟨target j, nameOf j⟩

theorem length_rootWith (target : Nat → Inum) (k : Nat) :
    (rootWith target k).length = k + 2 := by
  simp [rootWith]

theorem nameOf_absent {target : Nat → Inum} {k : Nat} (few : k < 4900) (off : Nat) :
    dirlookupFrom (nameOf k) off (rootWith target k) = none := by
  apply dirlookupFrom_none
  intro de member same
  have first : Char.ofNat (48 + k / 70) ≠ '.' := letter_ne (by omega) (by decide)
  rcases List.mem_cons.mp member with rfl | member
  · simp [nameOf] at same
  rcases List.mem_cons.mp member with rfl | member
  · simp only [nameOf, List.cons.injEq] at same
    exact first same.1.symm
  · obtain ⟨j, inside, rfl⟩ := List.mem_map.mp member
    have before := List.mem_range.mp inside
    have equal := nameOf_injective (by omega) few same
    omega

theorem insert_rootWith {target : Nat → Inum} (nonzero : ∀ j, target j ≠ 0) (k : Nat) :
    insertDirent ⟨target k, nameOf k⟩ (rootWith target k) = rootWith target (k + 1) := by
  rw [insertDirent_of_used, rootWith, rootWith, List.range_succ, List.map_append]
  · rfl
  · intro de member
    rcases List.mem_cons.mp member with rfl | member
    · exact Nat.one_ne_zero
    rcases List.mem_cons.mp member with rfl | member
    · exact Nat.one_ne_zero
    · obtain ⟨j, -, rfl⟩ := List.mem_map.mp member
      exact nonzero j

/-- So many processes with so many files open, each process as many as it has
descriptors. -/
def opened (processes k : Nat) : State where
  inode i :=
    if i = 1 then ⟨.dir, 0, 0, 1, rootWith (fun j => j + 2) k⟩
    else if 2 ≤ i ∧ i < k + 2 then ⟨.file, 0, 0, 1, []⟩
    else ⟨.free, 0, 0, 0, []⟩
  ninodes := 200
  ref i := if i = 1 then processes else if 2 ≤ i ∧ i < k + 2 then 1 else 0
  valid i := 1 ≤ i ∧ i < k + 2
  lock _ := none
  cwd pid := if pid < processes then some 1 else none
  ofile pid fd :=
    if inside : nofile * pid + fd < nfile then
      if nofile * pid + fd < k then some ⟨nofile * pid + fd, inside⟩ else none
    else none
  ftable f := if f.val < k then ⟨1, some (f.val + 2)⟩ else ⟨0, none⟩

theorem opened_one : opened 1 0 = freshRoot := by
  have none : ∀ i : Nat, ¬ (2 ≤ i ∧ i < 0 + 2) := fun i => by omega
  have root : ∀ i : Nat, 1 ≤ i ∧ i < 0 + 2 ↔ i = 1 := fun i => by omega
  simp only [opened, freshRoot, rootWith, if_neg (none _), root]
  simp

/-- A process without open files forks. -/
theorem opened_fork {n : Nat} (some : 0 < n) : CallsLead (opened n 0) (opened (n + 1) 0) := by
  have here : (opened n 0).cwd 0 = Option.some 1 := if_pos some
  have child : (opened n 0).cwd n = none := if_neg (Nat.lt_irrefl n)
  have forked : (opened n 0).forkFiles 0 n 1 = opened (n + 1) 0 := by
    apply State.ext
    case inode | ninodes | valid | lock => rfl
    case ref =>
        ext i
        by_cases root : i = 1 <;> simp [State.forkFiles, opened, root]
    case cwd =>
        funext (pid : Nat)
        by_cases isChild : pid = n
        · simp [State.forkFiles, opened, isChild]
        · have before : pid < n + 1 ↔ pid < n := by omega
          have still : ((opened n 0).forkFiles 0 n 1).cwd pid = (opened n 0).cwd pid := by
            simp [State.forkFiles, isChild]
          rw [still]
          simp only [opened, before]
    case ofile =>
        funext pid fd
        by_cases isChild : pid = n <;> simp [State.forkFiles, opened, isChild]
    case ftable =>
        funext f
        simp [State.forkFiles, State.descriptors, opened]
  have performs : Performs 0 (opened n 0) (Syscall.fork n).prog (opened (n + 1) 0) (.done 0) := by
    refine .step 0 ?_ (.refl _ _)
    rw [← forked]
    simp only [Syscall.prog, sysFork, Prog.step, here]
    exact if_pos ⟨child, Nat.ne_of_gt some⟩
  exact System.run_call (by rw [here]; rfl) performs

theorem countP_range_between (m k : Nat) :
    (List.range m).countP (fun i => 1 ≤ i ∧ i < k + 2) = min (m - 1) (k + 1) := by
  induction m with
  | zero => simp
  | succ m ih =>
      rw [List.range_succ, List.countP_append, ih, List.countP_singleton]
      split
      next inside =>
          have inside := of_decide_eq_true inside
          omega
      next outside =>
          have outside := of_decide_eq_false (Bool.eq_false_iff.mpr outside)
          omega

theorem cached_opened {n k : Nat} (some : 0 < n) (few : k < 199) :
    (opened n k).cached = k + 1 := by
  have counted := countP_range_between 200 k
  rw [State.cached, ← Nat.min_eq_right (show k + 1 ≤ 200 - 1 by omega), ← counted]
  apply List.countP_congr
  intro (i : Nat) _
  by_cases root : i = 1
  · simp [opened, root, some]
  · have file : 1 ≤ i ∧ i < k + 2 ↔ 2 ≤ i ∧ i < k + 2 := by omega
    rw [decide_eq_true_eq, decide_eq_true_eq, file, opened]
    dsimp only
    rw [if_neg root]
    split
    next inside => exact ⟨fun _ => inside, fun _ => Nat.one_pos⟩
    next outside => exact ⟨fun none => absurd none (Nat.lt_irrefl 0), (absurd · outside)⟩

theorem findFile_opened : ∀ k : Fin 50, (opened 4 k).findFile (k / 16) =
    some (⟨k % 16, Nat.mod_lt _ (by decide)⟩, ⟨k, Nat.lt_of_lt_of_le k.isLt (by decide)⟩) := by
  decide +kernel

theorem opened_here {n k pid : Nat} (inside : pid < n) : (opened n k).Here pid 1 := by
  refine ⟨if_pos inside, rfl, Nat.one_ne_zero, rfl, ?_, ?_⟩
  · simp [opened]
  · exact Nat.lt_of_le_of_lt (Nat.zero_le pid) inside

theorem opened_isFree {n k : Nat} (few : k < 198) : (opened n k).IsFree (k + 2) := by
  have outside : ¬ (2 ≤ k + 2 ∧ k + 2 < k + 2) := by omega
  have inside : k + 2 < 200 := by omega
  have other : ¬ k + 2 = 1 := by omega
  refine ⟨Nat.succ_pos _, inside, ?_⟩
  simp [opened, other]

theorem insert_opened (n k : Nat) :
    insertDirent ⟨k + 2, nameOf k⟩ ((opened n k).inode 1).dirents =
      rootWith (fun j => j + 2) (k + 1) := by
  have nonzero : ∀ j : Nat, j + 2 ≠ 0 := fun j => Nat.succ_ne_zero (j + 1)
  exact insert_rootWith nonzero k

theorem opened_succ (n : Nat) {k : Nat} (few : k < 50) :
    ((opened n k).newFile 1 (k + 2) (nameOf k)).openedFile (k / 16) (k + 2)
      ⟨k % 16, Nat.mod_lt _ (by decide)⟩ ⟨k, Nat.lt_of_lt_of_le few (by decide)⟩ =
      opened n (k + 1) := by
  have more : ∀ i : Nat, i ≠ k + 2 → (i < k + 2 ↔ i < k + 1 + 2) := fun i => by omega
  apply State.ext
  case ninodes | lock | cwd => rfl
  case inode =>
      funext (i : Nat)
      simp only [State.openedFile, State.newFile, State.setOfile_inode, State.setFile_inode,
        State.setValid_inode, State.setRef_inode, State.setInode_inode, insert_opened]
      by_cases root : i = 1
      · subst root
        simp [opened]
      · by_cases isNew : i = k + 2
        · subst isNew
          simp [opened]
        · simp [opened, root, isNew, more i isNew]
  case ref =>
      funext (i : Nat)
      simp only [State.openedFile, State.newFile, State.setOfile_ref, State.setFile_ref,
        State.setValid_ref, State.setRef_ref, State.setInode_ref]
      by_cases isNew : i = k + 2
      · subst isNew
        simp [opened]
      · simp [opened, isNew, more i isNew]
  case valid =>
      funext (i : Nat)
      simp only [State.openedFile, State.newFile, State.setOfile_valid, State.setFile_valid,
        State.setValid_valid, State.setRef_valid, State.setInode_valid]
      by_cases isNew : i = k + 2
      · subst isNew
        simp [opened]
      · simp [opened, isNew, more i isNew]
  case ofile =>
      funext (pid : Nat) fd
      simp only [State.openedFile, State.newFile, State.setOfile_ofile, State.setFile_ofile,
        State.setValid_ofile, State.setRef_ofile, State.setInode_ofile]
      have slot : (fd : Nat) < 16 := fd.isLt
      have small : 16 * (k / 16) + k % 16 < 100 := by omega
      have last : 16 * (k / 16) + k % 16 < k + 1 := by omega
      by_cases isNew : 16 * pid + fd = k
      · have isPid : pid = k / 16 := by omega
        have isFd : fd = ⟨k % 16, Nat.mod_lt _ (by decide)⟩ :=
          Fin.ext (show fd.val = k % 16 by omega)
        subst isPid
        rw [isFd, Function.update_self, Function.update_self]
        have place : k = 16 * (k / 16) + k % 16 := (Nat.div_add_mod k 16).symm
        simp only [opened, nofile, nfile, small, last, dite_true, if_true, Option.some.injEq,
          Fin.ext_iff]
        exact place
      · have before : 16 * pid + fd < k + 1 ↔ 16 * pid + fd < k := by omega
        by_cases isPid : pid = k / 16
        · subst isPid
          have other : fd ≠ ⟨k % 16, Nat.mod_lt _ (by decide)⟩ := by
            rintro rfl
            exact isNew (Nat.div_add_mod k 16)
          rw [Function.update_self, Function.update_of_ne other]
          simp only [opened, nofile, before]
        · rw [Function.update_of_ne isPid]
          simp only [opened, nofile, before]
  case ftable =>
      funext f
      simp only [State.openedFile, State.newFile, State.setOfile_ftable, State.setFile_ftable,
        State.setValid_ftable, State.setRef_ftable, State.setInode_ftable]
      by_cases isNew : f.val = k
      · have same : f = ⟨k, Nat.lt_of_lt_of_le few (by decide)⟩ := Fin.ext isNew
        rw [same, Function.update_self]
        simp [opened]
      · have other : f ≠ ⟨k, Nat.lt_of_lt_of_le few (by decide)⟩ := fun same => isNew (by rw [same])
        have before : f.val < k + 1 ↔ f.val < k := by omega
        rw [Function.update_of_ne other]
        simp only [opened, before]

/-- The next process makes a file and opens it. -/
theorem opened_open {n k : Nat} (inside : k / 16 < n) (few : k < 49) :
    CallsLead (opened n k) (opened n (k + 1)) := by
  have here : (opened n k).Here (k / 16) 1 := opened_here inside
  have room : (insertDirent ⟨k + 2, nameOf k⟩ ((opened n k).inode 1).dirents).length ≤
      maxDirents := by
    rw [insert_opened, length_rootWith]
    change k + 1 + 2 ≤ 4480
    omega
  have entry : (opened n k).cached < ninode := by
    rw [cached_opened (by omega) (by omega)]
    change k + 1 < 50
    omega
  have performs : Performs (k / 16) (opened n k) (Syscall.open (nameOf k) true true).prog
      (opened n (k + 1)) (.done (k % 16 : Nat)) := by
    rw [← opened_succ n (by omega)]
    apply Performs.openNew here (plain_nameOf (by omega)) (nameOf_absent (by omega) 0) room
      (opened_isFree (by omega)) _ rfl entry (findFile_opened ⟨k, by omega⟩)
    simp [opened]
  exact System.run_call (by rw [here.cwd]; rfl) performs

theorem freshRoot_leads {k : Nat} (few : k ≤ 49) : CallsLead freshRoot (opened 4 k) := by
  induction k with
  | zero =>
      rw [← opened_one]
      exact ((opened_fork (by decide)).trans (opened_fork (by decide))).trans
        (opened_fork (by decide))
  | succ k ih => exact (ih (by omega)).trans (opened_open (by omega) (by omega))

/-- The file that finds no entry in the cache. -/
theorem open_panics : ∃ t, (∀ pid, t.cwd pid ≠ none → pid < 4) ∧ (t.findFile 3).isSome ∧
    Performs 3 (opened 4 49) (Syscall.open (nameOf 49) true true).prog t
      (.panic .igetNoInodes) := by
  have here : (opened 4 49).Here 3 1 := opened_here (by decide)
  have full : ninode ≤ ((opened 4 49).setRef 1 ((opened 4 49).ref 1 + 1)).cached := by
    rw [State.cached_setRef here.used (Nat.succ_pos _), cached_opened (by decide) (by decide)]
  have isFree : (opened 4 49).IsFree 51 := opened_isFree (by decide)
  refine ⟨(((opened 4 49).setRef 1 5).setLock 1 (some 3)).setInode 51 (State.newInode .file),
    ?_, ?_, ?_⟩
  · intro (pid : Nat) running
    by_contra outside
    exact running (if_neg outside)
  · exact Option.isSome_of_mem (findFile_opened 49)
  · rw [Syscall.prog, sysOpen, if_pos rfl]
    apply Performs.create here (plain_nameOf (by decide)) (nameOf_absent (by decide) 0)
    exact Performs.ialloc_full (s := ((opened 4 49).setRef 1 5).setLock 1 (some 3)) isFree rfl full

/-- The panic is reached from a file system with an empty root directory: process 0
forks three times, and the four processes make and open 49 files; the next process to
open one has a descriptor and a `struct file` for it. -/
theorem fifty_inodes_panic :
    ConsistentImage freshRoot ∧
      ∃ labels sys, run System.step (.quiet freshRoot) labels = some sys ∧
        (∀ pid, sys.state.cwd pid ≠ none → pid < 4) ∧
        (sys.state.findFile 3).isSome ∧ sys.panicked = some .igetNoInodes := by
  refine ⟨freshRoot_consistent, ?_⟩
  obtain ⟨before, led⟩ := freshRoot_leads le_rfl
  obtain ⟨t, running, room, performs⟩ := open_panics
  have continues : ∀ message, (Syscall.open (nameOf 49) true true).prog ≠ .panic message :=
    namex_ne_panic true (nameOf 49) _
  obtain ⟨after, sys, ran, state, panicked⟩ := System.run_call_panics rfl continues performs
  subst state
  exact ⟨before ++ after, sys, LabelledRuns.run_append_eq_some.mpr ⟨_, led, ran⟩, running, room,
    panicked⟩

end Xv6.Fs
