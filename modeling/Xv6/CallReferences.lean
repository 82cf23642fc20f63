import Xv6.LabelledRuns
import Xv6.OpenFileReferences

/-!
# References over whole runs of system calls

Each call starts and ends with every reference accounted for by the tables,
whatever it is given and however it fails, and so every run of calls does.
-/

namespace Xv6.Calls

open StateTriples
open LabelledRuns (run)
open Fs (nofile nfile ninode rootino)

variable {sound short : Prop} {F F' : Files} {extra : Fp → Int} {more : Ip → Nat}
  {locked : Locks} {ops : Nat} {s : State} {p : Proc} {f : Fp} {ip : Ip}

/-- A process that runs has a current directory, and an entry without a process
has neither that nor a descriptor. -/
structure Files.ProcsOk (F : Files) : Prop where
  running : ∀ p, F.alive p = true → (F.proc p).cwd.isSome
  unused : ∀ p, F.alive p = false → (F.proc p).cwd = none ∧ ∀ fd, (F.proc p).ofile fd = none

theorem Files.ProcsOk.of_same (ok : F.ProcsOk) (same : F.SameProcs F') : F'.ProcsOk := by
  obtain ⟨proc, alive⟩ := same
  refine ⟨fun p => ?_, fun p => ?_⟩
  · rw [proc, alive]
    exact ok.running p
  · rw [proc, alive]
    exact ok.unused p

theorem Files.ProcsOk.setOfile (ok : F.ProcsOk) (alive : F.alive p = true) (fd : Fin nofile)
    (new : Option Fp) : (F.setOfile p fd new).ProcsOk := by
  refine ⟨fun q running => ?_, fun q dead => ?_⟩
  · by_cases same : q = p
    · subst same
      simpa [Files.setOfile, Files.setProc] using ok.running q running
    · simpa [Files.setOfile, Files.setProc, Function.update_of_ne same] using
        ok.running q running
  · have same : q ≠ p := by
      rintro rfl
      rw [show F.alive q = false from dead] at alive
      cases alive
    simpa [Files.setOfile, Files.setProc, Function.update_of_ne same] using ok.unused q dead

theorem Files.ProcsOk.setCwd (ok : F.ProcsOk) (alive : F.alive p = true) (ip : Ip) :
    (F.setCwd p (some ip)).ProcsOk := by
  refine ⟨fun q running => ?_, fun q dead => ?_⟩
  · by_cases same : q = p
    · subst same
      simp [Files.setCwd, Files.setProc]
    · simpa [Files.setCwd, Files.setProc, Function.update_of_ne same] using
        ok.running q running
  · have same : q ≠ p := by
      rintro rfl
      rw [show F.alive q = false from dead] at alive
      cases alive
    simpa [Files.setCwd, Files.setProc, Function.update_of_ne same] using ok.unused q dead

/-- Every reference is accounted for by the tables. -/
structure Settled (sound : Prop) (locked : Locks) (ops : Nat) (F : Files) (s : State) : Prop where
  owns : Owns sound F (fun _ => 0) (fun _ => 0) locked ops s
  procs : F.ProcsOk

/-- The end of a call. -/
def Ends (sound : Prop) (locked : Locks) (ops : Nat) (s : State) : Prop :=
  ∃ F, Settled sound locked ops F s

theorem Owns.bumped (owns : Owns sound F extra (bump more ip) locked ops s) :
    Has sound F (bump (fun jp => F.refsOf jp + more jp) ip) locked ops s := by
  rw [bump_refsOf]
  exact owns.has

theorem Owns.of_bumped (ok : F.RefsOk extra)
    (has : Has sound F (bump (fun jp => F.refsOf jp + more jp) ip) locked ops s) :
    Owns sound F extra (bump more ip) locked ops s := by
  rw [bump_refsOf] at has
  exact ⟨has, ok⟩

/-- The end of a failed `open`. -/
theorem openFailed_spec (free : locked ip = false)
    (owns : Owns sound F extra (bump more ip) (Function.update locked ip true) (ops + 1) s) :
    wp (Benign short) (iunlockput ip >>= fun _ => endWith (-1))
      (fun _ t => Owns sound F extra more locked ops t) s := by
  rw [wp_bind]
  refine wp_mono (iunlockput_locked free owns.bumped) fun _ t dropped => ?_
  exact wp_mono (endWith_spec _ dropped) fun _ u ended => ⟨ended, owns.ok⟩

/-- A file gets its inode. -/
theorem Files.RefsOk.setInode (ok : F.RefsOk extra) {file : File}
    (before : (F.ftable f).kind = .none) (kind : file.kind = .inode ip)
    (ref : file.ref = (F.ftable f).ref) (used : 1 ≤ (F.ftable f).ref) :
    (F.setFile f file).RefsOk extra := by
  have same : Files.shift extra f 0 = extra := by
    funext g
    simp [Files.shift_apply]
  rw [← same]
  refine ok.setFile 0 (by omega) (fun zero => by omega) (fun page => ?_) fun page isPipe => ?_
  · rw [kind, before]
    exact ⟨fun isPipe => (by cases isPipe), fun isPipe => (by cases isPipe)⟩
  · rw [before] at isPipe
    cases isPipe

theorem refsOf_setInode {file : File} (before : (F.ftable f).kind = .none)
    (kind : file.kind = .inode ip) (jp : Ip) :
    (F.setFile f file).refsOf jp = F.refsOf jp + hit (some ip) jp := by
  have counted := Files.refsOf_setFile F f file jp
  rwa [File.opens_of_none before, File.opens_of_inode kind] at counted

theorem openFile_spec (omode : Nat) (free : locked ip = false) (alive : F.alive p = true)
    (procs : F.ProcsOk)
    (owns : Owns sound F (fun _ => 0) (bump (fun _ => 0) ip) (Function.update locked ip true)
      (ops + 1) s) :
    wp (Benign short) (openFile p ip omode) (fun _ t => Ends sound locked ops t) s := by
  simp only [openFile, wp_bind]
  refine wp_mono (filealloc_spec owns) fun found t taken => ?_
  cases found with
  | none =>
      refine wp_mono (openFailed_spec free taken) fun _ u ended => ?_
      exact ⟨F, ended, procs⟩
  | some f =>
      obtain ⟨F₁, taken, one⟩ := taken
      have procs₁ := procs.of_same taken.procs
      simp only [wp_bind]
      refine wp_mono (fdalloc_spec one) fun found u given => ?_
      cases found with
      | none =>
          simp only
          rw [wp_bind]
          refine wp_mono (fileclose_taken given le_rfl) fun _ v closed => ?_
          obtain ⟨F₂, closed, two⟩ := closed
          refine wp_mono (openFailed_spec free two) fun _ w ended => ?_
          exact ⟨F₂, ended, procs₁.of_same closed.sameProcs⟩
      | some fd =>
          obtain ⟨empty, two⟩ := given
          rw [Files.shift_shift] at two
          have alive₁ : F₁.alive p = true := taken.procs.2 ▸ alive
          simp only [wp_bind]
          refine wp_mono (iunlock_locked free two.has) fun _ v unlocked => ?_
          refine wp_mono (endOp_spec unlocked) fun _ w ended => ?_
          simp only [getFiles, setFiles, wp_bind, wp_get, wp_modify, wp_pure, ended.files]
          have three : Owns sound _ _ _ locked ops w := ⟨ended, two.ok⟩
          refine ⟨_, three.setFiles (two.ok.setInode taken.kind rfl rfl taken.ref.ge)
            fun jp => ?_, ?_⟩
          · have kind : ((F₁.setOfile p fd (some f)).ftable f).kind = .none := taken.kind
            rw [refsOf_setInode kind rfl, bump_apply]
            omega
          · exact (procs₁.setOfile alive₁ fd (some f)).of_same ⟨rfl, rfl⟩

section Calls

variable {cwd : Ip}

theorem sysOpen_spec (path : Path) (omode : Nat)
    (full : unused (fun ip => F.refsOf ip + 0) ≤ 2 → short) (alive : F.alive p = true)
    (here : (F.proc p).cwd = some cwd) (settled : Settled sound locked ops F s) :
    wp (Benign short) (sysOpen p cwd path omode) (fun _ t => Ends sound locked ops t) s := by
  have used : 0 < F.refsOf cwd + 0 := Files.refsOf_pos here
  obtain ⟨owns, procs⟩ := settled
  unfold sysOpen
  split
  · exact ⟨F, owns, procs⟩
  case h_2 path =>
    have opened {ip : Ip} {t : State} (free : locked ip = false)
        (has : Has sound F (bump (fun jp => F.refsOf jp + 0) ip) (Function.update locked ip true)
          (ops + 1) t) :
        wp (Benign short) (openFile p ip omode) (fun _ u => Ends sound locked ops u) t :=
      openFile_spec omode free alive procs (.of_bumped owns.ok has)
    have failed {t : State} (has : Has sound F (fun jp => F.refsOf jp + 0) locked (ops + 1) t) :
        wp (Benign short) (endWith (-1)) (fun _ u => Ends sound locked ops u) t :=
      wp_mono (endWith_spec _ has) fun _ u ended => ⟨F, ⟨ended, owns.ok⟩, procs⟩
    simp only [wp_bind]
    refine wp_mono (beginOp_spec owns.has) fun _ t begun => ?_
    split
    · rw [wp_bind]
      refine wp_mono (create_spec path .file 0 0 full used begun) fun found u made => ?_
      cases found with
      | none => exact failed made
      | some ip => exact opened made.1 made.2
    · rw [wp_bind]
      refine wp_mono (namex_spec path false (fun few => full (few.trans (Nat.le_succ 1))) begun
        used) fun found u walked => ?_
      cases found with
      | none => exact failed walked
      | some entry =>
          obtain ⟨ip, name⟩ := entry
          simp only [nodeOf, wp_bind, wp_get, wp_pure]
          refine wp_mono (ilock_spec walked) fun _ v acquired => ?_
          split
          · rw [wp_bind]
            exact wp_mono (iunlockput_locked acquired.1 acquired.2) fun _ w dropped =>
              failed dropped
          · exact opened acquired.1 acquired.2

/-- A call that leaves the tables of the files alone. -/
theorem ends_of_has (settled : Settled sound locked ops F s) {program : Sys Int}
    (spec : wp (Benign short) program
      (fun _ t => Has sound F (fun jp => F.refsOf jp + 0) locked ops t) s) :
    wp (Benign short) program (fun _ t => Ends sound locked ops t) s :=
  wp_mono spec fun _ _ ended => ⟨F, ⟨ended, settled.owns.ok⟩, settled.procs⟩

theorem sysChdir_spec (path : Path) (full : unused (fun ip => F.refsOf ip + 0) ≤ 1 → short)
    (alive : F.alive p = true)
    (here : (F.proc p).cwd = some cwd) (settled : Settled sound locked ops F s) :
    wp (Benign short) (sysChdir p cwd path) (fun _ t => Ends sound locked ops t) s := by
  have used : 0 < F.refsOf cwd + 0 := Files.refsOf_pos here
  obtain ⟨owns, procs⟩ := settled
  have failed {t : State} (has : Has sound F (fun jp => F.refsOf jp + 0) locked (ops + 1) t) :
      wp (Benign short) (endWith (-1)) (fun _ u => Ends sound locked ops u) t :=
    wp_mono (endWith_spec _ has) fun _ u ended => ⟨F, ⟨ended, owns.ok⟩, procs⟩
  simp only [sysChdir, wp_bind]
  refine wp_mono (beginOp_spec owns.has) fun _ t begun => ?_
  split
  · exact failed begun
  case h_2 path =>
    rw [wp_bind]
    refine wp_mono (namex_spec path false full begun used) fun found u walked => ?_
    cases found with
    | none => exact failed walked
    | some entry =>
        obtain ⟨ip, name⟩ := entry
        simp only [nodeOf, wp_bind, wp_get, wp_pure]
        refine wp_mono (ilock_spec walked) fun _ v acquired => ?_
        obtain ⟨free, acquired⟩ := acquired
        split
        · rw [wp_bind]
          exact wp_mono (iunlockput_locked free acquired) fun _ w dropped => failed dropped
        · -- the reference to the new directory replaces the one to the old
          have moved : bump (fun jp => F.refsOf jp + 0) ip =
              bump (fun jp => (F.setCwd p (some ip)).refsOf jp + 0) cwd := by
            funext jp
            have counted := Files.refsOf_setCwd F p (some ip) jp
            rw [here] at counted
            rw [bump_apply, bump_apply]
            omega
          simp only [wp_bind]
          refine wp_mono (iunlock_locked free acquired) fun _ w unlocked => ?_
          rw [moved] at unlocked
          refine wp_mono (iput_spec unlocked) fun _ x put => ?_
          refine wp_mono (endOp_spec put.2) fun _ y ended => ?_
          simp only [getFiles, setFiles, wp_bind, wp_get, wp_modify, wp_pure, ended.files]
          exact ⟨_, .of_has ended (owns.ok.setCwd p (some ip)) fun _ => rfl, procs.setCwd alive ip⟩

/-- What `argfd` finds. -/
theorem argfd_spec (n : Int) (owns : Owns sound F extra more locked ops s) :
    wp (Benign short) (argfd p n)
      (fun found t => t = s ∧ ∀ fd f, found = some (fd, f) → (F.proc p).ofile fd = some f)
      s := by
  simp only [argfd, getFiles, wp_bind, wp_get, wp_pure, owns.files]
  split
  · split
    · exact ⟨rfl, fun _ _ found => by cases found⟩
    case h_2 f points =>
      refine ⟨rfl, fun fd f' found => ?_⟩
      cases found
      exact points
  · exact ⟨rfl, fun _ _ found => by cases found⟩

/-- A file with a descriptor is in use. -/
theorem Owns.used_of_ofile {fd : Fin nofile} (owns : Owns sound F extra more locked ops s)
    (nonneg : 0 ≤ extra f) (points : (F.proc p).ofile fd = some f) :
    1 ≤ (F.ftable f).ref := by
  have counted := owns.ok.ref f
  have pos := Files.slots_pos points
  omega

theorem sysDup_spec (fd : Int) (alive : F.alive p = true)
    (settled : Settled sound locked ops F s) :
    wp (Benign short) (sysDup p fd) (fun _ t => Ends sound locked ops t) s := by
  obtain ⟨owns, procs⟩ := settled
  simp only [sysDup, wp_bind]
  refine wp_mono (argfd_spec fd owns) fun found t looked => ?_
  obtain ⟨rfl, looked⟩ := looked
  cases found with
  | none => exact ⟨F, owns, procs⟩
  | some entry =>
      obtain ⟨old, f⟩ := entry
      have used := owns.used_of_ofile le_rfl (looked old f rfl)
      simp only [wp_bind]
      refine wp_mono (fdalloc_spec owns) fun found u given => ?_
      cases found with
      | none => exact ⟨F, given, procs⟩
      | some new =>
          obtain ⟨empty, given⟩ := given
          simp only [wp_bind, wp_pure]
          refine wp_mono (filedup_spec given used) fun _ v dupped => ?_
          obtain ⟨-, F', same, dupped⟩ := dupped
          have balanced := Files.shift_shift (fun _ => 0) f (-1)
          rw [Int.neg_neg] at balanced
          rw [balanced] at dupped
          exact ⟨F', dupped, (procs.setOfile alive new (some f)).of_same same⟩

theorem sysClose_spec (fd : Int) (alive : F.alive p = true)
    (settled : Settled sound locked ops F s) :
    wp (Benign short) (sysClose p fd) (fun _ t => Ends sound locked ops t) s := by
  obtain ⟨owns, procs⟩ := settled
  simp only [sysClose, wp_bind]
  refine wp_mono (argfd_spec fd owns) fun found t looked => ?_
  obtain ⟨rfl, looked⟩ := looked
  cases found with
  | none => exact ⟨F, owns, procs⟩
  | some entry =>
      obtain ⟨old, f⟩ := entry
      simp only [getFiles, setFiles, wp_bind, wp_get, wp_modify, wp_pure, owns.files]
      refine wp_mono (fileclose_taken (owns.clearOfile (looked old f rfl)) le_rfl)
        fun _ u closed => ?_
      obtain ⟨F', closed, ended⟩ := closed
      exact ⟨F', ended, (procs.setOfile alive old none).of_same closed.sameProcs⟩

/-- Both files of a pipe are given up. -/
theorem filecloseBoth_spec {f0 f1 : Fp} (differ : f0 ≠ f1) (procs : F.ProcsOk)
    (owns : Owns sound F (Files.shift (Files.shift (fun _ => 0) f0 1) f1 1) (fun _ => 0) locked ops
      s) :
    wp (Benign short) (fileclose f0 >>= fun _ => fileclose f1 >>= fun _ => pure (-1 : Int))
      (fun _ t => Ends sound locked ops t) s := by
  rw [Files.shift_comm] at owns
  simp only [wp_bind, wp_pure]
  refine wp_mono (fileclose_taken owns ?_) fun _ t closed => ?_
  · rw [Files.shift_apply, if_neg differ.symm]
    omega
  obtain ⟨F₁, closed₁, one⟩ := closed
  refine wp_mono (fileclose_taken one le_rfl) fun _ u closed => ?_
  obtain ⟨F₂, closed₂, two⟩ := closed
  exact ⟨F₂, two, procs.of_same (closed₁.sameProcs.trans closed₂.sameProcs)⟩

theorem sysPipe_spec (argptr : Bool) (kalloc : Option Nat)
    (fresh : ∀ page, kalloc = some page → F.allocated page = F.freed page)
    (alive : F.alive p = true) (settled : Settled sound locked ops F s) :
    wp (Benign short) (sysPipe p argptr kalloc) (fun _ t => Ends sound locked ops t) s := by
  obtain ⟨owns, procs⟩ := settled
  unfold sysPipe
  split
  · exact ⟨F, owns, procs⟩
  rw [wp_bind]
  refine wp_mono (pipealloc_spec kalloc fresh owns) fun made t allocated => ?_
  obtain ⟨F₁, same, allocated⟩ := allocated
  have procs₁ := procs.of_same same
  have alive₁ : F₁.alive p = true := same.2 ▸ alive
  cases made with
  | none => exact ⟨F₁, allocated, procs₁⟩
  | some ends =>
      obtain ⟨rf, wf⟩ := ends
      obtain ⟨differ, one⟩ := allocated
      simp only [wp_bind]
      refine wp_mono (fdalloc_spec one) fun found u given => ?_
      cases found with
      | none => exact filecloseBoth_spec differ procs₁ given
      | some fd0 =>
          obtain ⟨empty, two⟩ := given
          rw [Files.shift_comm (fun _ => 0), Files.shift_shift] at two
          have procs₂ := procs₁.setOfile alive₁ fd0 (some rf)
          simp only [wp_bind]
          refine wp_mono (fdalloc_spec two) fun found v given => ?_
          cases found with
          | none =>
              simp only [getFiles, setFiles]
              rw [wp_bind, wp_bind, wp_get, wp_pure, wp_bind, wp_modify, given.files]
              have points : ((F₁.setOfile p fd0 (some rf)).proc p).ofile fd0 = some rf := by
                simp [Files.setOfile, Files.setProc]
              have cleared := given.clearOfile points
              rw [Files.shift_comm] at cleared
              exact filecloseBoth_spec differ (procs₂.setOfile alive₁ fd0 none) cleared
          | some fd1 =>
              obtain ⟨empty, three⟩ := given
              rw [Files.shift_shift] at three
              exact ⟨_, three, procs₂.setOfile alive₁ fd1 (some wf)⟩

/-- The loops of `fork` and `exit` change the descriptors of one process. -/
structure Files.SameBut (p : Proc) (F F' : Files) : Prop where
  alive : F'.alive = F.alive
  others : ∀ q, q ≠ p → F'.proc q = F.proc q
  cwd : (F'.proc p).cwd = (F.proc p).cwd

theorem Files.SameBut.trans {F₁ F₂ F₃ : Files} (one : F₁.SameBut p F₂)
    (two : F₂.SameBut p F₃) : F₁.SameBut p F₃ :=
  ⟨two.alive.trans one.alive, fun q differ => (two.others q differ).trans (one.others q differ),
    two.cwd.trans one.cwd⟩

theorem Files.SameBut.setOfile (F : Files) (p : Proc) (fd : Fin nofile) (new : Option Fp) :
    F.SameBut p (F.setOfile p fd new) := by
  refine ⟨rfl, fun q differ => Function.update_of_ne differ .., ?_⟩
  simp [Files.setOfile, Files.setProc]

theorem Files.SameProcs.sameBut (same : F.SameProcs F') : F.SameBut p F' :=
  ⟨same.2, fun _ _ => by rw [same.1], by rw [same.1]⟩

theorem ofile_setOfile (F : Files) (p : Proc) (fd : Fin nofile) (new : Option Fp) :
    ((F.setOfile p fd new).proc p).ofile = Function.update (F.proc p).ofile fd new := by
  simp [Files.setOfile, Files.setProc]

theorem dupFiles_spec {np : Proc} (fds : List (Fin nofile))
    (nodup : fds.Nodup) (empty : ∀ fd ∈ fds, (F.proc np).ofile fd = none)
    (owns : Owns sound F (fun _ => 0) more locked ops s) :
    wp (Benign short) (dupFiles p np fds)
      (fun _ t => ∃ F', F.SameBut np F' ∧ Owns sound F' (fun _ => 0) more locked ops t) s := by
  induction fds generalizing F s with
  | nil => exact ⟨F, ⟨rfl, fun _ _ => rfl, rfl⟩, owns⟩
  | cons fd rest ih =>
      obtain ⟨fresh, nodup⟩ := List.nodup_cons.mp nodup
      have later : ∀ fd ∈ rest, (F.proc np).ofile fd = none := fun fd inside =>
        empty fd (List.mem_cons_of_mem _ inside)
      simp only [dupFiles, getFiles, wp_bind, wp_get, wp_pure, owns.files]
      split
      · exact ih nodup later owns
      case h_2 f points =>
        simp only [setFiles, wp_bind, wp_get, wp_modify, wp_pure]
        refine wp_mono (filedup_spec owns (owns.used_of_ofile le_rfl points))
          fun g t dupped => ?_
        obtain ⟨rfl, F₁, same₁, dupped⟩ := dupped
        rw [dupped.files]
        have vacant : (F₁.proc np).ofile fd = none := by
          rw [same₁.1]
          exact empty fd List.mem_cons_self
        have given := dupped.fillOfile (f := g) vacant
        rw [Files.shift_shift] at given
        refine wp_mono (ih nodup (fun fd' inside => ?_) given) fun _ u looped => ?_
        · have away : fd' ≠ fd := fun same => fresh (same ▸ inside)
          rw [ofile_setOfile, Function.update_of_ne away, same₁.1]
          exact later fd' inside
        · obtain ⟨F₂, same₂, ended⟩ := looped
          exact ⟨F₂, same₁.sameBut.trans ((Files.SameBut.setOfile F₁ np fd _).trans same₂), ended⟩

theorem fork_spec (np : Option Proc) (dead : ∀ q, np = some q → F.alive q = false)
    (alive : F.alive p = true) (here : (F.proc p).cwd = some cwd)
    (settled : Settled sound locked ops F s) :
    wp (Benign short) (fork p cwd np) (fun _ t => Ends sound locked ops t) s := by
  obtain ⟨owns, procs⟩ := settled
  unfold fork
  split
  · exact ⟨F, owns, procs⟩
  case h_2 np =>
    have unused := dead np rfl
    have differ : p ≠ np := by
      rintro rfl
      rw [alive] at unused
      cases unused
    have vacant := procs.unused np unused
    simp only [wp_bind]
    refine wp_mono (dupFiles_spec _ (List.nodup_finRange _) (fun fd _ => vacant.2 fd)
      owns) fun _ t looped => ?_
    obtain ⟨F₁, same, one⟩ := looped
    have mine : (F₁.proc p).cwd = some cwd := by rw [same.others p differ, here]
    have none : (F₁.proc np).cwd = Option.none := same.cwd.trans vacant.1
    refine wp_mono (idup_spec one.has (Files.refsOf_pos mine)) fun ip u dupped => ?_
    obtain ⟨rfl, dupped⟩ := dupped
    simp only [getFiles, setFiles, wp_bind, wp_get, wp_modify, wp_pure, dupped.files]
    have counted (jp : Ip) :
        (F₁.setCwd np (some ip)).refsOf jp + 0 = bump (fun jp => F₁.refsOf jp + 0) ip jp := by
      have moved := Files.refsOf_setCwd F₁ np (some ip) jp
      rw [none] at moved
      rw [bump_apply]
      simpa using moved
    refine ⟨_, .of_has dupped ((one.ok.setCwd np (some ip)).setAlive _) fun jp => ?_, ?_, ?_⟩
    · rw [← counted jp]
      exact congrArg (· + 0) (refsOf_of_same (by rfl) (by rfl) jp)
    · intro q running
      by_cases child : q = np
      · subst child
        simp [Files.setCwd, Files.setProc]
      · have before : F.alive q = true := by
          rw [← same.alive]
          simpa [Files.setCwd, Files.setProc, Function.update_of_ne child] using running
        simpa [Files.setCwd, Files.setProc, Function.update_of_ne child,
          same.others q child] using procs.running q before
    · intro q dead
      have child : q ≠ np := by
        rintro rfl
        simp [Files.setCwd, Files.setProc] at dead
      have before : F.alive q = false := by
        rw [← same.alive]
        simpa [Files.setCwd, Files.setProc, Function.update_of_ne child] using dead
      simpa [Files.setCwd, Files.setProc, Function.update_of_ne child,
        same.others q child] using procs.unused q before

theorem closeFiles_spec (fds : List (Fin nofile))
    (owns : Owns sound F (fun _ => 0) more locked ops s) :
    wp (Benign short) (closeFiles p fds)
      (fun _ t => ∃ F', F.SameBut p F' ∧
        (∀ fd, fd ∈ fds ∨ (F.proc p).ofile fd = none → (F'.proc p).ofile fd = none) ∧
        Owns sound F' (fun _ => 0) more locked ops t) s := by
  induction fds generalizing F s with
  | nil =>
      refine ⟨F, ⟨rfl, fun _ _ => rfl, rfl⟩, fun fd closed => ?_, owns⟩
      rcases closed with inside | closed
      · cases inside
      · exact closed
  | cons fd rest ih =>
      simp only [closeFiles, getFiles, wp_bind, wp_get, wp_pure, owns.files]
      split
      case h_1 empty =>
        refine wp_mono (ih owns) fun _ t looped => ?_
        obtain ⟨F', same, cleared, ended⟩ := looped
        refine ⟨F', same, fun fd' closed => cleared fd' ?_, ended⟩
        rcases closed with inside | closed
        · rcases List.mem_cons.mp inside with rfl | later
          · exact .inr empty
          · exact .inl later
        · exact .inr closed
      case h_2 f points =>
        simp only [setFiles, wp_bind, wp_get, wp_modify, wp_pure]
        refine wp_mono (fileclose_spec owns (owns.used_of_ofile le_rfl points))
          fun _ t closed => ?_
        obtain ⟨F₁, closed, one⟩ := closed
        rw [one.files]
        have points₁ : (F₁.proc p).ofile fd = some f := by
          rw [closed.1]
          exact points
        have two := one.clearOfile points₁
        have balanced := Files.shift_shift (fun _ => 0) f (-1)
        rw [Int.neg_neg] at balanced
        rw [balanced] at two
        refine wp_mono (ih two) fun _ u looped => ?_
        obtain ⟨F₂, same, cleared, ended⟩ := looped
        refine ⟨F₂, closed.sameProcs.sameBut.trans ((Files.SameBut.setOfile F₁ p fd _).trans same),
          fun fd' before => cleared fd' ?_, ended⟩
        rw [ofile_setOfile]
        by_cases here : fd' = fd
        · subst here
          exact .inr (Function.update_self ..)
        · rw [Function.update_of_ne here, closed.1]
          rcases before with inside | before
          · rcases List.mem_cons.mp inside with rfl | later
            · exact absurd rfl here
            · exact .inl later
          · exact .inr before

theorem exit_spec (here : (F.proc p).cwd = some cwd)
    (settled : Settled sound locked ops F s) :
    wp (Benign short) (exit p cwd) (fun _ t => Ends sound locked ops t) s := by
  obtain ⟨owns, procs⟩ := settled
  unfold exit
  split
  · exact .of_other (by decide)
  simp only [wp_bind]
  refine wp_mono (closeFiles_spec _ owns) fun _ t looped => ?_
  obtain ⟨F₁, same, cleared, one⟩ := looped
  have moved : (fun jp => F₁.refsOf jp + 0) =
      bump (fun jp => (F₁.setCwd p none).refsOf jp + 0) cwd := by
    funext jp
    have counted := Files.refsOf_setCwd F₁ p none jp
    rw [same.cwd, here, hit_none] at counted
    rw [bump_apply]
    omega
  have has := one.has
  rw [moved] at has
  refine wp_mono (beginOp_spec has) fun _ u begun => ?_
  refine wp_mono (iput_spec begun) fun _ v put => ?_
  refine wp_mono (endOp_spec put.2) fun _ w ended => ?_
  simp only [getFiles, setFiles, wp_bind, wp_get, wp_modify, wp_pure, ended.files]
  refine ⟨_, .of_has ended ((one.ok.setCwd p none).setAlive _) fun jp => ?_, ?_, ?_⟩
  · exact congrArg (· + 0) (refsOf_of_same (by rfl) (by rfl) jp)
  · intro q running
    have away : q ≠ p := by
      rintro rfl
      simp [Files.setCwd, Files.setProc] at running
    have before : F.alive q = true := by
      rw [← same.alive]
      simpa [Files.setCwd, Files.setProc, Function.update_of_ne away] using running
    simpa [Files.setCwd, Files.setProc, Function.update_of_ne away,
      same.others q away] using procs.running q before
  · intro q dead
    by_cases own : q = p
    · subst own
      have closed (fd : Fin nofile) := cleared fd (.inl (List.mem_finRange fd))
      simpa [Files.setCwd, Files.setProc] using closed
    · have before : F.alive q = false := by
        rw [← same.alive]
        simpa [Files.setCwd, Files.setProc, Function.update_of_ne own] using dead
      simpa [Files.setCwd, Files.setProc, Function.update_of_ne own,
        same.others q own] using procs.unused q before

theorem perform_spec (call : Call) (full : unused (fun ip => F.refsOf ip + 0) ≤ 2 → short)
    (answers : F.Answers call) (alive : F.alive p = true)
    (here : (F.proc p).cwd = some cwd) (settled : Settled sound locked ops F s) :
    wp (Benign short) (perform p cwd call) (fun _ t => Ends sound locked ops t) s := by
  have has := settled.owns.has
  have used : 0 < F.refsOf cwd + 0 := Files.refsOf_pos here
  have full' (few : unused (fun ip => F.refsOf ip + 0) ≤ 1) : short :=
    full (few.trans (Nat.le_succ 1))
  cases call with
  | «open» path omode => exact sysOpen_spec path omode full alive here settled
  | link old new => exact ends_of_has settled (sysLink_spec old new full used has)
  | unlink path => exact ends_of_has settled (sysUnlink_spec path full' used has)
  | mkdir path => exact ends_of_has settled (makeNode_spec path .dir 0 0 full used has)
  | mknod path major minor =>
      exact ends_of_has settled (makeNode_spec path .dev major minor full used has)
  | chdir path => exact sysChdir_spec path full' alive here settled
  | exec path result => exact ends_of_has settled (sysExec_spec path result full' used has)
  | dup fd => exact sysDup_spec fd alive settled
  | close fd => exact sysClose_spec fd alive settled
  | pipe argptr kalloc =>
      refine sysPipe_spec argptr kalloc (fun page got => ?_) alive settled
      subst got
      exact answers
  | fork np =>
      refine fork_spec np (fun q got => ?_) alive here settled
      subst got
      exact answers
  | exit => exact exit_spec here settled

end Calls

/-! ## Runs -/

/-- The kernel after `userinit`: one process, in the root directory. -/
def boot (disk : Nat → Nat → Dinode) (ninodes : Nat) : State where
  icache ip :=
    if ip = 0 then ⟨rootdev, rootino, 1, false, false, ⟨.free, 0, 0, 0, [], []⟩⟩
    else ⟨0, 0, 0, false, false, ⟨.free, 0, 0, 0, [], []⟩⟩
  disk := disk
  ninodes := ninodes
  outstanding := 0
  files :=
    { ftable := fun _ => ⟨.none, 0, false, false, 0⟩
      proc := fun p => ⟨fun _ => none, if p = initproc then some 0 else none⟩
      alive := fun p => p = initproc
      pipe := fun _ => ⟨false, false⟩
      allocated := fun _ => 0
      freed := fun _ => 0 }

/-- No call is going on. -/
abbrev Quiet (sound : Prop) (s : State) : Prop :=
  Ends sound (fun _ => false) 0 s

theorem slots_boot (disk : Nat → Nat → Dinode) (ninodes : Nat) (f : Fp) :
    (boot disk ninodes).files.slots f = 0 := by
  rw [Files.slots]
  exact Finset.sum_eq_zero fun p _ => Finset.sum_eq_zero fun fd _ => rfl

theorem refsOf_boot (disk : Nat → Nat → Dinode) (ninodes : Nat) (ip : Ip) :
    (boot disk ninodes).files.refsOf ip = if ip = 0 then 1 else 0 := by
  have files : ∑ f, ((boot disk ninodes).files.ftable f).opens ip = 0 :=
    Finset.sum_eq_zero fun f _ => rfl
  have cwds : ∑ p, hit ((boot disk ninodes).files.proc p).cwd ip = if ip = 0 then 1 else 0 := by
    rw [Finset.sum_eq_single initproc]
    · change hit (some 0) ip = _
      rw [hit_some]
      exact if_congr eq_comm rfl rfl
    · intro p _ other
      change hit (if p = initproc then some 0 else none) ip = 0
      rw [if_neg other, hit_none]
    · exact fun outside => absurd (Finset.mem_univ _) outside
  rw [Files.refsOf, files, cwds, Nat.zero_add]

/-- Every inode in use on the disk has a link. -/
def Linked (disk : Nat → Nat → Dinode) : Prop :=
  ∀ dev inum, (disk dev inum).type ≠ .free → (disk dev inum).nlink ≠ 0

theorem quiet_boot {disk : Nat → Nat → Dinode} (ninodes : Nat) (linked : sound → Linked disk) :
    Quiet sound (boot disk ninodes) := by
  have used {ip : Ip} (pos : 0 < (boot disk ninodes).files.refsOf ip + 0) : ip = 0 := by
    rw [refsOf_boot] at pos
    by_contra other
    rw [if_neg other] at pos
    cases pos
  have noPipe (page : Nat) : ¬ (boot disk ninodes).files.PipeInUse page := by
    rintro ⟨f, isPipe⟩
    cases isPipe
  have empty (ip : Ip) : ((boot disk ninodes).icache ip).valid = false := by
    by_cases root : ip = 0
    · simp [boot, root]
    · simp [boot, root]
  refine ⟨_, ⟨⟨rfl, fun ip => ?_, fun ip => ?_, rfl, fun ip jp one two _ _ => ?_,
    fun ip _ valid => ?_, fun ip held => ?_, fun holds dev inum type nlink => ?_⟩,
    ⟨fun f => ?_, fun _ _ => rfl, fun f g page isPipe => ?_, fun page => ?_,
      fun page inUse => absurd inUse (noPipe page)⟩⟩, fun p alive => ?_, fun p dead => ?_⟩
  · rw [refsOf_boot]
    by_cases root : ip = 0
    · simp [boot, root]
    · simp [boot, root]
  · by_cases root : ip = 0
    · simp [boot, root]
    · simp [boot, root]
  · rw [used one, used two]
  · rw [empty ip] at valid
    cases valid
  · cases held
  · exact absurd nlink (linked holds dev inum type)
  · rw [slots_boot]
    rfl
  · cases isPipe
  · rw [if_neg (noPipe page)]
    rfl
  · have init : p = initproc := of_decide_eq_true alive
    simp [boot, init]
  · have other : p ≠ initproc := of_decide_eq_false dead
    simp [boot, other]

/-- A step is a call that returns, of a process with a current directory. -/
theorem State.step_eq_some {t : State} {label : Label} (stepped : s.step label = some t) :
    ∃ cwd value, s.files.alive label.p = true ∧ (s.files.proc label.p).cwd = some cwd ∧
      s.files.Answers label.call ∧ perform label.p cwd label.call s = .ok (value, t) := by
  unfold State.step at stepped
  split at stepped
  case h_1 cwd alive here =>
    split at stepped
    case isTrue answers =>
      split at stepped
      case h_1 value next performed =>
        cases stepped
        exact ⟨cwd, value, alive, here, answers, performed⟩
      case h_2 => cases stepped
    case isFalse => cases stepped
  case h_2 => cases stepped

theorem quiet_step {s t : State} {label : Label} (quiet : Quiet sound s)
    (stepped : s.step label = some t) : Quiet sound t := by
  obtain ⟨F, settled⟩ := quiet
  obtain ⟨cwd, value, alive, here, answers, performed⟩ := State.step_eq_some stepped
  rw [settled.owns.files] at alive here answers
  have ended := post_of_wp
    (perform_spec label.call (fun _ => trivial) answers alive here settled) performed
  exact ended

theorem quiet_of_run {disk : Nat → Nat → Dinode} {ninodes : Nat} {labels : List Label}
    {last : State} (linked : sound → Linked disk)
    (ran : run State.step (boot disk ninodes) labels = some last) : Quiet sound last :=
  LabelledRuns.invariant_of_run quiet_step (quiet_boot ninodes linked) ran

/-- Some descriptor leads to an end of the pipe in this page. -/
def Files.Leads (F : Files) (page : Nat) : Prop :=
  ∃ p fd f, (F.proc p).ofile fd = some f ∧ (F.ftable f).kind = .pipe page

instance (F : Files) (page : Nat) : Decidable (F.Leads page) :=
  inferInstanceAs (Decidable (∃ _, _))

theorem Owns.leads_iff (owns : Owns sound F (fun _ => 0) more locked ops s) (page : Nat) :
    F.Leads page ↔ F.PipeInUse page := by
  constructor
  · rintro ⟨p, fd, f, points, isPipe⟩
    exact ⟨f, isPipe⟩
  · rintro ⟨f, isPipe⟩
    have counted := owns.ok.ref f
    have pos : 0 < F.slots f := by
      by_contra none
      have closed := owns.ok.closed f (by omega)
      rw [closed] at isPipe
      cases isPipe
    obtain ⟨p, fd, points⟩ := Files.exists_of_slots_pos pos
    exact ⟨p, fd, f, points, isPipe⟩

/-- The references of the file table are exact after every run of calls: each
file has as many as descriptors point to it, one that has none is closed and has
no descriptor, no call makes `filedup` or `fileclose` panic, and the page of a
pipe was freed once for each time it was allocated unless a descriptor still
leads to it. -/
theorem fileReferences_of_run {disk : Nat → Nat → Dinode} {ninodes : Nat}
    {labels : List Label} {last : State}
    (ran : run State.step (boot disk ninodes) labels = some last) :
    (∀ f, (last.files.ftable f).ref = last.files.slots f) ∧
      (∀ f, (last.files.ftable f).ref = 0 → (last.files.ftable f).kind = .none ∧
        ∀ p fd, (last.files.proc p).ofile fd ≠ some f) ∧
      (∀ p cwd call halt, last.files.alive p = true →
        (last.files.proc p).cwd = some cwd → last.files.Answers call →
        perform p cwd call last = .error halt → halt ≠ .filedup ∧ halt ≠ .fileclose) ∧
      ∀ page, last.files.allocated page =
        last.files.freed page + if last.files.Leads page then 1 else 0 := by
  obtain ⟨F, settled⟩ := quiet_of_run False.elim ran
  have owns := settled.owns
  have counted (f : Fp) : (F.ftable f).ref = F.slots f := by
    have ref := owns.ok.ref f
    omega
  rw [owns.files]
  refine ⟨counted, fun f zero => ⟨owns.ok.closed f zero, fun p fd points => ?_⟩,
    fun p cwd call halt alive here answers failed => ?_, fun page => ?_⟩
  · have pos := Files.slots_pos points
    rw [counted f] at zero
    omega
  · have benign : Benign True halt :=
      allowed_of_wp (perform_spec call (fun _ => trivial) answers alive here settled) failed
    exact ⟨benign.1, benign.2.1⟩
  · rw [if_congr (owns.leads_iff page) rfl rfl]
    exact owns.ok.pipes.counted page

/-- The references of the inode cache are exact after every run of calls: no two
entries in use are of one inode, each entry has as many references as open files
and current directories point to it, no entry is locked, and no finished call
left its transaction open. -/
theorem inodeReferences_of_run {disk : Nat → Nat → Dinode} {ninodes : Nat}
    {labels : List Label} {last : State}
    (ran : run State.step (boot disk ninodes) labels = some last) :
    (∀ ip jp, 0 < (last.icache ip).ref → 0 < (last.icache jp).ref →
      (last.icache ip).dev = (last.icache jp).dev →
      (last.icache ip).inum = (last.icache jp).inum → ip = jp) ∧
      (∀ ip, (last.icache ip).ref = last.files.refsOf ip) ∧
      (∀ ip, (last.icache ip).locked = false) ∧ last.outstanding = 0 := by
  obtain ⟨F, settled⟩ := quiet_of_run False.elim ran
  have has := settled.owns.has
  rw [has.files]
  refine ⟨fun ip jp one two dev inum => ?_, has.ref, has.locked, has.outstanding⟩
  rw [has.ref] at one two
  exact has.unique ip jp one two dev inum

/-- A disk with an empty root directory. -/
def emptyDisk (_ inum : Nat) : Dinode :=
  if inum = rootino then ⟨.dir, 0, 0, 1, [⟨1, ['.']⟩, ⟨1, ['.', '.']⟩], []⟩
  else ⟨.free, 0, 0, 0, [], []⟩

local instance shareCalls_neZero : NeZero 64 := ⟨by decide⟩

/-- A process creates a file, shares it and a pipe with a child, and the child
exits. -/
def shareCalls : List Label :=
  [⟨0, .open (some ['a']) 0x202⟩, ⟨0, .dup 0⟩, ⟨0, .pipe true (some 7)⟩,
    ⟨0, .fork (some 1)⟩, ⟨1, .close 2⟩, ⟨1, .exit⟩]

theorem run_shareCalls :
    ∃ last, run State.step (boot emptyDisk 8) shareCalls = some last :=
  Option.isSome_iff_exists.mp (by decide +kernel)

theorem fileReferences_of_shareCalls :
    ∃ last, run State.step (boot emptyDisk 8) shareCalls = some last ∧
      ∀ f, (last.files.ftable f).ref = last.files.slots f := by
  obtain ⟨last, ran⟩ := run_shareCalls
  exact ⟨last, ran, (fileReferences_of_run ran).1⟩

theorem inodeReferences_of_shareCalls :
    ∃ last, run State.step (boot emptyDisk 8) shareCalls = some last ∧
      ∀ ip, (last.icache ip).ref = last.files.refsOf ip := by
  obtain ⟨last, ran⟩ := run_shareCalls
  exact ⟨last, ran, (inodeReferences_of_run ran).2.1⟩

end Xv6.Calls
