import Xv6.Counting
import Xv6.InodeReferences
import Xv6.LabelledRuns
import Mathlib.Data.Fintype.BigOperators

/-!
# References to open files, pipes and cached inodes

Between two system calls every reference is accounted for: a `struct file` has
as many references as descriptors point to it, an entry of the inode cache as
many as open files and current directories do, and the page of a pipe is in use
exactly while some descriptor leads to it.  Inside a call the difference is
what the call itself holds.
-/

namespace Xv6.Calls

open StateTriples
open Fs (nofile nfile ninode)

/-- One when a pointer points to an entry. -/
def hit {n : Nat} (pointer : Option (Fin n)) (entry : Fin n) : Nat :=
  if pointer = some entry then 1 else 0

/-- The number of descriptors of a process that point to a file. -/
def Process.slots (process : Process) (f : Fp) : Nat :=
  ∑ fd, hit (process.ofile fd) f

/-- One when a file points to an entry of the inode cache. -/
def File.opens (file : File) (ip : Ip) : Nat :=
  if file.kind = .inode ip then 1 else 0

theorem hit_some {n : Nat} (entry other : Fin n) :
    hit (some entry) other = if entry = other then 1 else 0 := by
  simp [hit]

@[simp]
theorem hit_none {n : Nat} (entry : Fin n) : hit none entry = 0 :=
  rfl

theorem File.opens_of_inode {file : File} {ip : Ip} (kind : file.kind = .inode ip) (jp : Ip) :
    file.opens jp = hit (some ip) jp := by
  simp [File.opens, hit, kind]

theorem File.opens_of_none {file : File} (kind : file.kind = .none) (jp : Ip) :
    file.opens jp = 0 := by
  simp [File.opens, kind]

theorem bump_apply (more : Ip → Nat) (ip jp : Ip) :
    bump more ip jp = more jp + hit (some ip) jp := by
  by_cases same : jp = ip
  · subst same
    simp [hit]
  · rw [bump_of_ne same, hit_some, if_neg (Ne.symm same)]
    rfl

namespace Files

variable (F : Files)

/-- The number of descriptors that point to a file. -/
def slots (f : Fp) : Nat :=
  ∑ p, (F.proc p).slots f

/-- The number of open files and current directories that point to an entry of
the inode cache. -/
def refsOf (ip : Ip) : Nat :=
  ∑ f, (F.ftable f).opens ip + ∑ p, hit (F.proc p).cwd ip

/-- Some file is an end of the pipe in this page. -/
def PipeInUse (page : Nat) : Prop :=
  ∃ f, (F.ftable f).kind = .pipe page

instance (page : Nat) : Decidable (F.PipeInUse page) :=
  inferInstanceAs (Decidable (∃ _, _))

/-- Each end of a pipe is at most one file, the flags in the page say which ends
there are, and a page is freed as often as it was allocated unless it is in
use. -/
structure PipesOk : Prop where
  single : ∀ f g page, (F.ftable f).kind = .pipe page → (F.ftable g).kind = .pipe page →
    (F.ftable f).writable = (F.ftable g).writable → f = g
  counted : ∀ page, F.allocated page = F.freed page + if F.PipeInUse page then 1 else 0
  ends : ∀ page, F.PipeInUse page → ∀ writable : Bool,
    ((if writable then (F.pipe page).writeopen else (F.pipe page).readopen) = true ↔
      ∃ f, (F.ftable f).kind = .pipe page ∧ (F.ftable f).writable = writable)

/-- The references to files, up to what a call holds or still owes. -/
structure RefsOk (extra : Fp → Int) : Prop where
  ref : ∀ f, ((F.ftable f).ref : Int) = F.slots f + extra f
  closed : ∀ f, (F.ftable f).ref = 0 → (F.ftable f).kind = .none
  pipes : F.PipesOk

variable {F} {p : Proc} {fd : Fin nofile} {f : Fp}

/-! ## How the counts change -/

theorem slots_setOfile (F : Files) (p : Proc) (fd : Fin nofile) (new : Option Fp) (g : Fp) :
    (F.setOfile p fd new).slots g + hit ((F.proc p).ofile fd) g =
      F.slots g + hit new g := by
  have process := Counting.sum_update_add (fun process =>
    Process.slots process g) F.proc (Finset.mem_univ p)
    { F.proc p with ofile := Function.update (F.proc p).ofile fd new }
  have descriptor := Counting.sum_update_add (fun slot => hit slot g)
    (F.proc p).ofile (Finset.mem_univ fd) new
  simp only [Process.slots] at process
  simp only [slots, Process.slots, setOfile, setProc]
  omega

@[simp]
theorem slots_setFile (F : Files) (file : File) (g : Fp) :
    (F.setFile f file).slots g = F.slots g :=
  rfl

/-- A process changes without its descriptors. -/
theorem slots_setProc {process : Process} (same : process.ofile = (F.proc p).ofile) (g : Fp) :
    (F.setProc p process).slots g = F.slots g := by
  apply Finset.sum_congr rfl
  intro q _
  by_cases here : q = p
  · subst here
    simp [setProc, Process.slots, same]
  · simp [setProc, Function.update_of_ne here]

/-- A process changes without its current directory. -/
theorem refsOf_setProc {process : Process} (same : process.cwd = (F.proc p).cwd) (ip : Ip) :
    (F.setProc p process).refsOf ip = F.refsOf ip := by
  have cwds : ∑ q, hit ((F.setProc p process).proc q).cwd ip = ∑ q, hit (F.proc q).cwd ip := by
    apply Finset.sum_congr rfl
    intro q _
    by_cases here : q = p
    · subst here
      simp [setProc, same]
    · simp [setProc, Function.update_of_ne here]
  rw [refsOf, refsOf, cwds]
  rfl

theorem refsOf_setOfile (F : Files) (p : Proc) (fd : Fin nofile) (new : Option Fp) (ip : Ip) :
    (F.setOfile p fd new).refsOf ip = F.refsOf ip := by
  unfold setOfile
  exact refsOf_setProc (by rfl) ip

theorem refsOf_setFile (F : Files) (f : Fp) (file : File) (ip : Ip) :
    (F.setFile f file).refsOf ip + (F.ftable f).opens ip =
      F.refsOf ip + file.opens ip := by
  have changed := Counting.sum_update_add (fun file =>
    File.opens file ip) F.ftable (Finset.mem_univ f) file
  simp only [refsOf, setFile]
  omega

theorem refsOf_setFile_of_kind {file : File} (same : file.kind = (F.ftable f).kind) (ip : Ip) :
    (F.setFile f file).refsOf ip = F.refsOf ip := by
  have counted := refsOf_setFile F f file ip
  rw [File.opens, File.opens, same] at counted
  omega

theorem refsOf_setCwd (F : Files) (p : Proc) (new : Option Ip) (ip : Ip) :
    (F.setCwd p new).refsOf ip + hit (F.proc p).cwd ip = F.refsOf ip + hit new ip := by
  have changed := Counting.sum_update_add (fun process =>
    hit (Process.cwd process) ip) F.proc (Finset.mem_univ p) ⟨(F.proc p).ofile, new⟩
  dsimp only at changed
  simp only [refsOf, setCwd, setProc]
  omega

theorem slots_pos (points : (F.proc p).ofile fd = some f) : 0 < F.slots f := by
  have inner : hit ((F.proc p).ofile fd) f ≤ (F.proc p).slots f :=
    Finset.single_le_sum (f := fun fd => hit ((F.proc p).ofile fd) f)
      (fun _ _ => Nat.zero_le _) (Finset.mem_univ fd)
  have outer : (F.proc p).slots f ≤ F.slots f :=
    Finset.single_le_sum (f := fun p => (F.proc p).slots f)
      (fun _ _ => Nat.zero_le _) (Finset.mem_univ p)
  rw [points, hit_some, if_pos rfl] at inner
  omega

theorem exists_of_slots_pos (pos : 0 < F.slots f) :
    ∃ p fd, (F.proc p).ofile fd = some f := by
  obtain ⟨p, _, some⟩ := Finset.exists_ne_zero_of_sum_ne_zero (Nat.pos_iff_ne_zero.mp pos)
  obtain ⟨fd, _, points⟩ := Finset.exists_ne_zero_of_sum_ne_zero some
  refine ⟨p, fd, ?_⟩
  by_contra other
  exact points (if_neg other)

theorem refsOf_pos {ip : Ip} (points : (F.proc p).cwd = some ip) : 0 < F.refsOf ip := by
  have single : hit (F.proc p).cwd ip ≤ ∑ p, hit (F.proc p).cwd ip :=
    Finset.single_le_sum (f := fun p => hit (F.proc p).cwd ip)
      (fun _ _ => Nat.zero_le _) (Finset.mem_univ p)
  rw [points, hit_some, if_pos rfl] at single
  unfold refsOf
  omega

theorem slots_of_same {F' : Files} (proc : F'.proc = F.proc) (g : Fp) :
    F'.slots g = F.slots g := by
  rw [slots, slots, proc]

attribute [irreducible] slots refsOf

/-! ## What keeps the references -/

/-- Files change without the ends of pipes. -/
theorem PipesOk.of_same {F' : Files} (ok : F.PipesOk)
    (kind : ∀ g page, (F'.ftable g).kind = .pipe page ↔ (F.ftable g).kind = .pipe page)
    (writable : ∀ g page, (F.ftable g).kind = .pipe page →
      (F'.ftable g).writable = (F.ftable g).writable)
    (pipe : F'.pipe = F.pipe) (allocated : F'.allocated = F.allocated)
    (freed : F'.freed = F.freed) : F'.PipesOk := by
  have inUse (page : Nat) : F'.PipeInUse page ↔ F.PipeInUse page :=
    exists_congr fun g => kind g page
  refine ⟨fun g h page one two same => ?_, fun page => ?_, fun page used writable' => ?_⟩
  · rw [kind] at one two
    rw [writable g page one, writable h page two] at same
    exact ok.single g h page one two same
  · rw [allocated, freed, ok.counted page]
    exact congrArg _ (if_congr (inUse page).symm rfl rfl)
  · rw [pipe, ok.ends page ((inUse page).mp used) writable']
    refine exists_congr fun g => ?_
    rw [kind]
    exact and_congr_right fun one => by rw [writable g page one]

/-- A call takes a reference, or gives one up. -/
def shift (extra : Fp → Int) (f : Fp) (by' : Int) : Fp → Int :=
  Function.update extra f (extra f + by')

theorem shift_apply (extra : Fp → Int) (f g : Fp) (by' : Int) :
    shift extra f by' g = extra g + if f = g then by' else 0 := by
  by_cases same : g = f
  · subst same
    simp [shift]
  · simp [shift, Function.update_of_ne same, Ne.symm same]

theorem shift_shift (extra : Fp → Int) (f : Fp) (by' : Int) :
    shift (shift extra f by') f (-by') = extra := by
  funext g
  rw [shift_apply, shift_apply]
  split <;> omega

theorem shift_comm (extra : Fp → Int) (f g : Fp) (by' also : Int) :
    shift (shift extra f by') g also = shift (shift extra g also) f by' := by
  funext h
  simp only [shift_apply]
  omega

variable {extra : Fp → Int}

/-- A file changes its count and keeps, loses or gets its kind, without being a
pipe before or after unless that stays the same. -/
theorem RefsOk.setFile (ok : F.RefsOk extra) {file : File} (by' : Int)
    (ref : (file.ref : Int) = (F.ftable f).ref + by')
    (closed : file.ref = 0 → file.kind = .none)
    (kind : ∀ page, file.kind = .pipe page ↔ (F.ftable f).kind = .pipe page)
    (writable : ∀ page, (F.ftable f).kind = .pipe page →
      file.writable = (F.ftable f).writable) :
    (F.setFile f file).RefsOk (shift extra f by') := by
  have here : (F.setFile f file).ftable f = file := by simp [Files.setFile]
  have other {g : Fp} (differ : g ≠ f) : (F.setFile f file).ftable g = F.ftable g := by
    simp [Files.setFile, Function.update_of_ne differ]
  refine ⟨fun g => ?_, fun g => ?_, ok.pipes.of_same (fun g page => ?_)
    (fun g page => ?_) rfl rfl rfl⟩
  · rw [shift_apply, slots_setFile]
    by_cases same : g = f
    · subst same
      rw [here, ref, ok.ref, if_pos rfl]
      omega
    · rw [other same, ok.ref, if_neg (Ne.symm same)]
      omega
  · by_cases same : g = f
    · subst same
      rw [here]
      exact closed
    · rw [other same]
      exact ok.closed g
  · by_cases same : g = f
    · subst same
      rw [here]
      exact kind page
    · rw [other same]
  · by_cases same : g = f
    · subst same
      rw [here]
      exact writable page
    · exact fun _ => by rw [other same]

/-- A descriptor changes. -/
theorem RefsOk.setOfile (ok : F.RefsOk extra) (p : Proc) (fd : Fin nofile)
    (new : Option Fp) {extra' : Fp → Int}
    (balance : ∀ g, extra' g = extra g + hit ((F.proc p).ofile fd) g - hit new g) :
    (F.setOfile p fd new).RefsOk extra' := by
  refine ⟨fun g => ?_, ok.closed, ok.pipes.of_same (fun _ _ => Iff.rfl) (fun _ _ _ => rfl)
    rfl rfl rfl⟩
  have counted := slots_setOfile F p fd new g
  have before := ok.ref g
  rw [balance g]
  change ((F.ftable g).ref : Int) = _
  omega

/-- A process changes without its descriptors. -/
theorem RefsOk.setProc (ok : F.RefsOk extra) {process : Process}
    (same : process.ofile = (F.proc p).ofile) : (F.setProc p process).RefsOk extra := by
  refine ⟨fun g => ?_, ok.closed, ok.pipes.of_same (fun _ _ => Iff.rfl) (fun _ _ _ => rfl)
    rfl rfl rfl⟩
  rw [slots_setProc same]
  exact ok.ref g

theorem RefsOk.setCwd (ok : F.RefsOk extra) (p : Proc) (ip : Option Ip) :
    (F.setCwd p ip).RefsOk extra :=
  ok.setProc rfl

/-- A process starts or ends without its descriptors. -/
theorem RefsOk.setAlive (ok : F.RefsOk extra) (alive : Proc → Bool) :
    Files.RefsOk { F with alive := alive } extra := by
  refine ⟨fun g => ?_, ok.closed, ok.pipes.of_same (fun _ _ => Iff.rfl) (fun _ _ _ => rfl)
    rfl rfl rfl⟩
  rw [slots_of_same (by rfl : Files.proc { F with alive := alive } = F.proc)]
  exact ok.ref g

theorem shift_some (extra : Fp → Int) (f g : Fp) :
    shift extra f (-1) g = extra g - hit (some f) g := by
  rw [shift_apply, hit_some]
  split <;> omega

/-- The last reference to an end of a pipe is given up: `fileclose` and
`pipeclose`, with the `kfree` when the other end is gone too. -/
def closeEnd (F : Files) (f : Fp) (page : Nat) : Files :=
  let p := (F.pipe page).shut (F.ftable f).writable
  { F.setFile f { F.ftable f with ref := 0, kind := .none } with
    pipe := Function.update F.pipe page p
    freed :=
      if p.readopen = false ∧ p.writeopen = false then
        Function.update F.freed page (F.freed page + 1)
      else F.freed }

/-- The flag of an end of a pipe. -/
def flag (F : Files) (page : Nat) (writable : Bool) : Bool :=
  if writable then (F.pipe page).writeopen else (F.pipe page).readopen

theorem flag_closeEnd (F : Files) (f : Fp) (page : Nat) :
    (F.closeEnd f page).flag page (F.ftable f).writable = false ∧
      (F.closeEnd f page).flag page (!(F.ftable f).writable) =
        F.flag page (!(F.ftable f).writable) := by
  cases writable : (F.ftable f).writable <;> simp [flag, closeEnd, Pipe.shut, writable]

theorem freed_closeEnd (F : Files) (f : Fp) (page : Nat) :
    (F.closeEnd f page).freed page =
      F.freed page + if F.flag page (!(F.ftable f).writable) then 0 else 1 := by
  cases writable : (F.ftable f).writable
  · cases other : (F.pipe page).writeopen <;> simp [flag, closeEnd, Pipe.shut, writable, other]
  · cases other : (F.pipe page).readopen <;> simp [flag, closeEnd, Pipe.shut, writable, other]

theorem freed_closeEnd_of_ne (F : Files) (f : Fp) {page page' : Nat} (differ : page' ≠ page) :
    (F.closeEnd f page).freed page' = F.freed page' := by
  simp only [closeEnd]
  split
  · exact Function.update_of_ne differ ..
  · rfl

theorem PipesOk.closeEnd (ok : F.PipesOk) {page : Nat}
    (kind : (F.ftable f).kind = .pipe page) : (F.closeEnd f page).PipesOk := by
  have here : ((F.closeEnd f page).ftable f).kind = .none := by
    simp [Files.closeEnd, Files.setFile]
  have other {g : Fp} (differ : g ≠ f) :
      (F.closeEnd f page).ftable g = F.ftable g := by
    simp [Files.closeEnd, Files.setFile, Function.update_of_ne differ]
  have pipes {g : Fp} {page' : Nat}
      (isPipe : ((F.closeEnd f page).ftable g).kind = .pipe page') :
      g ≠ f ∧ (F.ftable g).kind = .pipe page' := by
    have differ : g ≠ f := by
      rintro rfl
      rw [here] at isPipe
      cases isPipe
    exact ⟨differ, other differ ▸ isPipe⟩
  have inUse : F.PipeInUse page := ⟨f, kind⟩
  have theirs := ok.ends page inUse (!(F.ftable f).writable)
  -- the other end of the pipe is a file exactly when its flag is set
  have stays : (F.closeEnd f page).PipeInUse page ↔
      F.flag page (!(F.ftable f).writable) = true := by
    rw [flag, theirs]
    constructor
    · rintro ⟨g, isPipe⟩
      obtain ⟨differ, before⟩ := pipes isPipe
      refine ⟨g, before, ?_⟩
      by_contra same
      have equal : (F.ftable g).writable = (F.ftable f).writable := by
        revert same
        cases (F.ftable g).writable <;> cases (F.ftable f).writable <;> decide
      exact differ (ok.single g f page before kind equal)
    · rintro ⟨g, before, opposite⟩
      have differ : g ≠ f := by
        rintro rfl
        revert opposite
        cases (F.ftable g).writable <;> decide
      exact ⟨g, by rw [other differ]; exact before⟩
  have elsewhere {page' : Nat} (differ : page' ≠ page) :
      (F.closeEnd f page).PipeInUse page' ↔ F.PipeInUse page' := by
    refine exists_congr fun g => ?_
    by_cases same : g = f
    · subst same
      rw [here, kind]
      simp [Ne.symm differ]
    · rw [other same]
  refine ⟨fun g h page' one two same => ?_, fun page' => ?_, fun page' used writable => ?_⟩
  · obtain ⟨differG, one⟩ := pipes one
    obtain ⟨differH, two⟩ := pipes two
    rw [other differG, other differH] at same
    exact ok.single g h page' one two same
  · change F.allocated page' = _
    by_cases differ : page' = page
    · subst differ
      rw [ok.counted, if_pos inUse, freed_closeEnd, if_congr stays rfl rfl]
      cases F.flag page' (!(F.ftable f).writable) <;> simp
    · rw [ok.counted, freed_closeEnd_of_ne F f differ, if_congr (elsewhere differ) rfl rfl]
  · by_cases differ : page' = page
    · subst differ
      have open' := stays.mp used
      by_cases own : writable = (F.ftable f).writable
      · subst own
        refine ⟨fun set => ?_, ?_⟩
        · have cleared := (flag_closeEnd F f page').1
          rw [flag] at cleared
          rw [cleared] at set
          cases set
        · rintro ⟨g, isPipe, same⟩
          obtain ⟨differG, before⟩ := pipes isPipe
          rw [other differG] at same
          exact absurd (ok.single g f page' before kind same) differG
      · have opposite : writable = !(F.ftable f).writable := by
          revert own
          cases writable <;> cases (F.ftable f).writable <;> decide
        subst opposite
        have kept := (flag_closeEnd F f page').2
        rw [flag] at kept
        rw [kept]
        refine ⟨fun set => ?_, fun _ => open'⟩
        obtain ⟨g, before, opposite⟩ := theirs.mp open'
        have differ : g ≠ f := by
          rintro rfl
          revert opposite
          cases (F.ftable g).writable <;> decide
        exact ⟨g, by rw [other differ]; exact ⟨before, opposite⟩⟩
    · have samePipe : (F.closeEnd f page).pipe page' = F.pipe page' :=
        Function.update_of_ne differ ..
      rw [samePipe, ok.ends page' ((elsewhere differ).mp used) writable]
      refine exists_congr fun g => ?_
      by_cases same : g = f
      · subst same
        rw [here, kind]
        simp [Ne.symm differ]
      · rw [other same]

/-- `pipealloc` makes two fresh files the ends of a page that is not in use. -/
def makePipe (F : Files) (page : Nat) (f0 f1 : Fp) : Files :=
  let files : Files :=
    { F with
      allocated := Function.update F.allocated page (F.allocated page + 1)
      pipe := Function.update F.pipe page ⟨true, true⟩ }
  let files := files.setFile f0 { files.ftable f0 with
    kind := .pipe page, readable := true, writable := false }
  files.setFile f1 { files.ftable f1 with
    kind := .pipe page, readable := false, writable := true }

theorem PipesOk.makePipe (ok : F.PipesOk) {page : Nat} {f0 f1 : Fp} (differ : f0 ≠ f1)
    (kind0 : (F.ftable f0).kind = .none) (kind1 : (F.ftable f1).kind = .none)
    (fresh : F.allocated page = F.freed page) : (F.makePipe page f0 f1).PipesOk := by
  have unused : ¬ F.PipeInUse page := by
    intro used
    have counted := ok.counted page
    rw [if_pos used] at counted
    omega
  have first : (F.makePipe page f0 f1).ftable f0 =
      { F.ftable f0 with kind := .pipe page, readable := true, writable := false } := by
    simp [Files.makePipe, setFile, Function.update_of_ne differ]
  have second : (F.makePipe page f0 f1).ftable f1 =
      { F.ftable f1 with kind := .pipe page, readable := false, writable := true } := by
    simp [Files.makePipe, setFile, Function.update_of_ne differ.symm]
  have other {g : Fp} (not0 : g ≠ f0) (not1 : g ≠ f1) :
      (F.makePipe page f0 f1).ftable g = F.ftable g := by
    simp [Files.makePipe, setFile, Function.update_of_ne not0, Function.update_of_ne not1]
  have elsewhere {g : Fp} {page' : Nat} (away : page' ≠ page) :
      ((F.makePipe page f0 f1).ftable g).kind = .pipe page' ↔
        (F.ftable g).kind = .pipe page' := by
    by_cases is0 : g = f0
    · subst is0
      rw [first, kind0]
      simp [Ne.symm away]
    · by_cases is1 : g = f1
      · subst is1
        rw [second, kind1]
        simp [Ne.symm away]
      · rw [other is0 is1]
  have ends {g : Fp} (isPipe : ((F.makePipe page f0 f1).ftable g).kind = .pipe page) :
      g = f0 ∨ g = f1 := by
    by_contra neither
    obtain ⟨not0, not1⟩ := not_or.mp neither
    rw [other not0 not1] at isPipe
    exact unused ⟨g, isPipe⟩
  refine ⟨fun g h page' one two same => ?_, fun page' => ?_, fun page' used writable => ?_⟩
  · by_cases away : page' = page
    · subst away
      rcases ends one with rfl | rfl <;> rcases ends two with rfl | rfl
      · rfl
      · rw [first, second] at same
        cases same
      · rw [first, second] at same
        cases same
      · rfl
    · rw [elsewhere away] at one two
      have kept {g : Fp} (isPipe : (F.ftable g).kind = .pipe page') :
          (F.makePipe page f0 f1).ftable g = F.ftable g := by
        refine other ?_ ?_
        · rintro rfl
          rw [kind0] at isPipe
          cases isPipe
        · rintro rfl
          rw [kind1] at isPipe
          cases isPipe
      rw [kept one, kept two] at same
      exact ok.single g h page' one two same
  · by_cases away : page' = page
    · subst away
      have used : (F.makePipe page' f0 f1).PipeInUse page' := ⟨f0, by rw [first]⟩
      rw [if_pos used]
      simp [Files.makePipe, setFile, fresh]
    · have same : (F.makePipe page f0 f1).PipeInUse page' ↔ F.PipeInUse page' :=
        exists_congr fun g => elsewhere away
      rw [if_congr same rfl rfl]
      simpa [Files.makePipe, setFile, Function.update_of_ne away] using ok.counted page'
  · by_cases away : page' = page
    · subst away
      have flags : (F.makePipe page' f0 f1).pipe page' = ⟨true, true⟩ := by
        simp [Files.makePipe, setFile]
      rw [flags]
      refine ⟨fun _ => ?_, fun _ => by cases writable <;> rfl⟩
      cases writable
      · exact ⟨f0, by rw [first], by rw [first]⟩
      · exact ⟨f1, by rw [second], by rw [second]⟩
    · have samePipe : (F.makePipe page f0 f1).pipe page' = F.pipe page' := by
        simp [Files.makePipe, setFile, Function.update_of_ne away]
      have before : F.PipeInUse page' := by
        obtain ⟨g, isPipe⟩ := used
        exact ⟨g, (elsewhere away).mp isPipe⟩
      rw [samePipe, ok.ends page' before writable]
      refine exists_congr fun g => ?_
      by_cases is0 : g = f0
      · subst is0
        rw [first, kind0]
        simp [Ne.symm away]
      · by_cases is1 : g = f1
        · subst is1
          rw [second, kind1]
          simp [Ne.symm away]
        · rw [other is0 is1]

end Files

/-- What a call owns: the tables of the files, the references to files that no
descriptor accounts for, its own references to inodes, its locks and its
transactions. -/
structure Owns (sound : Prop) (F : Files) (extra : Fp → Int) (more : Ip → Nat) (locked : Locks)
    (ops : Nat) (s : State) : Prop where
  has : Has sound F (fun ip => F.refsOf ip + more ip) locked ops s
  ok : F.RefsOk extra

variable {sound short : Prop} {F F' : Files} {extra extra' : Fp → Int} {more more' : Ip → Nat}
  {locked : Locks} {ops : Nat} {s : State} {p : Proc} {f : Fp} {ip : Ip}

theorem bump_refsOf (F : Files) (more : Ip → Nat) (ip : Ip) :
    bump (fun jp => F.refsOf jp + more jp) ip = fun jp => F.refsOf jp + bump more ip jp := by
  funext jp
  rw [bump_apply, bump_apply, Nat.add_assoc]

/-- The tables of the files are replaced by tables that account for all
references. -/
theorem Owns.of_has {refs : Ip → Nat} (has : Has sound F refs locked ops s) (ok : F'.RefsOk extra)
    (same : ∀ ip, F'.refsOf ip + more ip = refs ip) :
    Owns sound F' extra more locked ops { s with files := F' } := by
  have total : (fun ip => F'.refsOf ip + more ip) = refs := funext same
  rw [← total] at has
  exact ⟨{ has with files := rfl }, ok⟩

theorem Owns.setFiles (owns : Owns sound F extra more locked ops s) (ok : F'.RefsOk extra')
    (same : ∀ ip, F'.refsOf ip + more' ip = F.refsOf ip + more ip) :
    Owns sound F' extra' more' locked ops { s with files := F' } :=
  .of_has owns.has ok same

theorem Owns.files (owns : Owns sound F extra more locked ops s) : s.files = F :=
  owns.has.files

/-- The tables after a call that changes no process. -/
def Files.SameProcs (F F' : Files) : Prop :=
  F'.proc = F.proc ∧ F'.alive = F.alive

theorem Files.SameProcs.trans {F₁ F₂ F₃ : Files} (one : F₁.SameProcs F₂)
    (two : F₂.SameProcs F₃) : F₁.SameProcs F₃ :=
  ⟨two.1.trans one.1, two.2.trans one.2⟩

/-- What `filealloc` makes of the tables. -/
structure Files.Taken (F : Files) (f : Fp) (F' : Files) : Prop where
  procs : F.SameProcs F'
  before : (F.ftable f).ref = 0
  kind : (F'.ftable f).kind = .none
  ref : (F'.ftable f).ref = 1
  others : ∀ g, g ≠ f → F'.ftable g = F.ftable g
  allocated : F'.allocated = F.allocated
  freed : F'.freed = F.freed

theorem filealloc_spec (owns : Owns sound F extra more locked ops s) :
    wp (Benign short) filealloc
      (fun found t => match found with
        | none => Owns sound F extra more locked ops t
        | some f => ∃ F', F.Taken f F' ∧
            Owns sound F' (Files.shift extra f 1) more locked ops t) s := by
  simp only [filealloc, getFiles, wp_bind, wp_get, wp_pure, owns.files]
  split
  · exact owns
  case h_2 f found =>
    have unused : (F.ftable f).ref = 0 := by simpa using List.find?_some found
    have kind := owns.ok.closed f unused
    simp only [setFiles, wp_bind, wp_modify, wp_pure]
    refine ⟨F.setFile f _, ⟨⟨rfl, rfl⟩, unused, ?_, ?_,
      fun g differ => Function.update_of_ne differ .., rfl, rfl⟩,
      owns.setFiles (owns.ok.setFile 1 ?_ (fun zero => ?_) (fun _ => Iff.rfl) fun _ _ => rfl)
        fun ip => ?_⟩
    · simpa [Files.setFile] using kind
    · simp [Files.setFile]
    · rw [unused]
      rfl
    · cases zero
    · exact congrArg (· + more ip) (Files.refsOf_setFile_of_kind (by rfl) ip)

theorem filedup_spec (owns : Owns sound F extra more locked ops s) (used : 1 ≤ (F.ftable f).ref) :
    wp (Benign short) (filedup f)
      (fun g t => g = f ∧ ∃ F', F.SameProcs F' ∧
        Owns sound F' (Files.shift extra f 1) more locked ops t) s := by
  simp only [filedup, getFiles, setFiles, wp_bind, wp_get, wp_pure, owns.files]
  rw [if_neg (by omega)]
  simp only [wp_bind, wp_modify, wp_pure]
  refine ⟨trivial, _, ⟨?_, ?_⟩, owns.setFiles (owns.ok.setFile 1 rfl (fun zero => ?_)
    (fun _ => Iff.rfl) fun _ _ => rfl) fun ip => ?_⟩
  · rfl
  · rfl
  · cases zero
  · exact congrArg (· + more ip) (Files.refsOf_setFile_of_kind (by rfl) ip)

/-- A descriptor changes. -/
theorem Owns.setOfile {fd : Fin nofile} {new : Option Fp}
    (owns : Owns sound F extra more locked ops s)
    (balance : ∀ g, extra' g = extra g + hit ((F.proc p).ofile fd) g - hit new g) :
    Owns sound (F.setOfile p fd new) extra' more locked ops
      { s with files := F.setOfile p fd new } :=
  owns.setFiles (owns.ok.setOfile p fd new balance) fun ip => by
    rw [Files.refsOf_setOfile]

/-- A descriptor is cleared, and the call has its reference. -/
theorem Owns.clearOfile {fd : Fin nofile} (owns : Owns sound F extra more locked ops s)
    (points : (F.proc p).ofile fd = some f) :
    Owns sound (F.setOfile p fd none) (Files.shift extra f 1) more locked ops
      { s with files := F.setOfile p fd none } := by
  refine owns.setOfile fun g => ?_
  rw [points, Files.shift_apply, hit_some]
  split <;> simp

/-- A descriptor gets a reference, that of the call or one that the call then
owes. -/
theorem Owns.fillOfile {fd : Fin nofile} (owns : Owns sound F extra more locked ops s)
    (empty : (F.proc p).ofile fd = none) :
    Owns sound (F.setOfile p fd (some f)) (Files.shift extra f (-1)) more locked ops
      { s with files := F.setOfile p fd (some f) } := by
  refine owns.setOfile fun g => ?_
  rw [Files.shift_some, empty]
  simp

theorem fdalloc_spec (owns : Owns sound F extra more locked ops s) :
    wp (Benign short) (fdalloc p f)
      (fun found t => match found with
        | none => Owns sound F extra more locked ops t
        | some fd => (F.proc p).ofile fd = none ∧
            Owns sound (F.setOfile p fd (some f)) (Files.shift extra f (-1)) more locked ops t)
      s := by
  simp only [fdalloc, getFiles, wp_bind, wp_get, wp_pure, owns.files]
  split
  · exact owns
  case h_2 fd found =>
    have unused : (F.proc p).ofile fd = none := by simpa using List.find?_some found
    simp only [setFiles, wp_bind, wp_modify, wp_pure]
    exact ⟨unused, owns.fillOfile unused⟩

/-- What `fileclose` leaves of the tables. -/
def Files.Closed (F : Files) (f : Fp) (F' : Files) : Prop :=
  F'.proc = F.proc ∧ F'.alive = F.alive ∧ ∀ g, g ≠ f → F'.ftable g = F.ftable g

theorem Files.RefsOk.closeEnd {page : Nat} (ok : F.RefsOk extra)
    (kind : (F.ftable f).kind = .pipe page) (last : (F.ftable f).ref = 1) :
    (F.closeEnd f page).RefsOk (Files.shift extra f (-1)) := by
  refine ⟨fun g => ?_, fun g zero => ?_, ok.pipes.closeEnd kind⟩
  · rw [Files.shift_apply, Files.slots_of_same (by rfl : (F.closeEnd f page).proc = F.proc)]
    change (((Function.update F.ftable f _) g).ref : Int) = _
    by_cases same : g = f
    · subst same
      have before := ok.ref g
      rw [Function.update_self, if_pos rfl]
      rw [last] at before
      push_cast at before ⊢
      omega
    · rw [Function.update_of_ne same, ok.ref, if_neg (Ne.symm same)]
      omega
  · change ((Function.update F.ftable f _) g).kind = .none
    change ((Function.update F.ftable f _) g).ref = 0 at zero
    by_cases same : g = f
    · subst same
      rw [Function.update_self]
    · rw [Function.update_of_ne same] at zero ⊢
      exact ok.closed g zero

theorem refsOf_closeEnd {page : Nat} (kind : (F.ftable f).kind = .pipe page) (ip : Ip) :
    (F.closeEnd f page).refsOf ip = F.refsOf ip := by
  have counted := Files.refsOf_setFile F f ⟨.none, 0, (F.ftable f).readable,
    (F.ftable f).writable, (F.ftable f).off⟩ ip
  have before : (F.ftable f).opens ip = 0 := by simp [File.opens, kind]
  have same : (F.closeEnd f page).refsOf ip = (F.setFile f ⟨.none, 0, (F.ftable f).readable,
      (F.ftable f).writable, (F.ftable f).off⟩).refsOf ip := by
    simp only [Files.refsOf]
    rfl
  rw [same]
  rw [before] at counted
  exact counted

/-- The step of `fileclose` when no other reference is left. -/
theorem wp_pipeclose {page : Nat} {post : Unit → State → Prop}
    (holds : post () { s with files := F.closeEnd f page }) :
    wp (Benign short) (pipeclose page (F.ftable f).writable) post
      { s with files := F.setFile f { F.ftable f with ref := 0, kind := .none } } := by
  simp only [pipeclose, getFiles, setFiles, wp_bind, wp_get, wp_pure, wp_modify,
    Files.setFile]
  dsimp only [Files.closeEnd, Files.setFile] at holds
  by_cases both : ((F.pipe page).shut (F.ftable f).writable).readopen = false ∧
      ((F.pipe page).shut (F.ftable f).writable).writeopen = false
  · rw [if_pos both] at holds
    rw [if_pos both]
    exact holds
  · rw [if_neg both] at holds
    rw [if_neg both]
    exact holds

theorem pipeclose_spec {page : Nat} (owns : Owns sound F extra more locked ops s)
    (kind : (F.ftable f).kind = .pipe page) (last : (F.ftable f).ref = 1) :
    wp (Benign short) (pipeclose page (F.ftable f).writable)
      (fun _ t => Owns sound (F.closeEnd f page) (Files.shift extra f (-1)) more locked ops t)
      { s with files := F.setFile f { F.ftable f with ref := 0, kind := .none } } :=
  wp_pipeclose (owns.setFiles (owns.ok.closeEnd kind last)
    fun ip => by rw [refsOf_closeEnd kind])

/-- A file that is no pipe loses its last reference. -/
theorem Files.RefsOk.clear (ok : F.RefsOk extra) (last : (F.ftable f).ref = 1)
    (kind : ∀ page, (F.ftable f).kind ≠ .pipe page) :
    (F.setFile f { F.ftable f with ref := 0, kind := .none }).RefsOk
      (Files.shift extra f (-1)) := by
  refine ok.setFile (-1) ?_ (fun _ => rfl) (fun page => ?_) fun page isPipe => ?_
  · rw [last]
    rfl
  · exact ⟨fun isPipe => (by cases isPipe), fun isPipe => absurd isPipe (kind page)⟩
  · exact absurd isPipe (kind page)

/-- The reference to an inode passes from a file to the call that closes it. -/
theorem refsOf_clear (kind : (F.ftable f).kind = .inode ip) (jp : Ip) :
    (F.setFile f { F.ftable f with ref := 0, kind := .none }).refsOf jp + bump more ip jp =
      F.refsOf jp + more jp := by
  have counted := Files.refsOf_setFile F f ⟨.none, 0, (F.ftable f).readable,
    (F.ftable f).writable, (F.ftable f).off⟩ jp
  rw [File.opens_of_inode kind, File.opens_of_none (by rfl)] at counted
  rw [bump_apply]
  dsimp only
  omega

theorem Files.Closed.setFile (F : Files) (f : Fp) (file : File) :
    F.Closed f (F.setFile f file) :=
  ⟨rfl, rfl, fun _ differ => Function.update_of_ne differ ..⟩

theorem fileclose_spec (owns : Owns sound F extra more locked ops s)
    (used : 1 ≤ (F.ftable f).ref) :
    wp (Benign short) (fileclose f)
      (fun _ t => ∃ F', F.Closed f F' ∧
        Owns sound F' (Files.shift extra f (-1)) more locked ops t) s := by
  simp only [fileclose, getFiles, wp_bind, wp_get, wp_pure, owns.files]
  rw [if_neg (by omega)]
  split
  case isTrue others =>
    simp only [setFiles, wp_modify]
    refine ⟨_, .setFile F f _, owns.setFiles (owns.ok.setFile (-1) ?_ (fun zero => ?_)
      (fun _ => Iff.rfl) fun _ _ => rfl) fun ip => ?_⟩
    · push_cast [used]
      omega
    · dsimp only at zero
      omega
    · exact congrArg (· + more ip) (Files.refsOf_setFile_of_kind (by rfl) ip)
  case isFalse none =>
    have last : (F.ftable f).ref = 1 := by omega
    simp only [setFiles, wp_bind, wp_modify]
    split
    case h_1 page kind =>
      refine wp_mono (pipeclose_spec owns kind last) fun _ t closed => ?_
      exact ⟨F.closeEnd f page, ⟨rfl, rfl, fun _ differ => Function.update_of_ne differ ..⟩,
        closed⟩
    case h_2 ip kind =>
      have notPipe (page : Nat) : (F.ftable f).kind ≠ .pipe page := by
        rw [kind]
        rintro ⟨⟩
      have cleared := owns.setFiles (owns.ok.clear last notPipe)
        (fun ip => refsOf_clear kind ip)
      have has := cleared.has
      rw [← bump_refsOf] at has
      simp only [wp_bind]
      refine wp_mono (beginOp_spec has) fun _ t begun => ?_
      refine wp_mono (iput_spec begun) fun _ u put => ?_
      refine wp_mono (endOp_spec put.2) fun _ v ended => ?_
      exact ⟨_, .setFile F f _, ended, cleared.ok⟩
    case h_3 kind =>
      simp only [wp_pure]
      have notPipe (page : Nat) : (F.ftable f).kind ≠ .pipe page := by
        rw [kind]
        rintro ⟨⟩
      refine ⟨_, .setFile F f _, owns.setFiles (owns.ok.clear last notPipe) fun ip => ?_⟩
      exact congrArg (· + more ip) (Files.refsOf_setFile_of_kind (by exact kind.symm) ip)

/-- A file that a call holds a reference to is in use. -/
theorem Owns.used (owns : Owns sound F extra more locked ops s) (held : 1 ≤ extra f) :
    1 ≤ (F.ftable f).ref := by
  have counted := owns.ok.ref f
  omega

theorem Files.RefsOk.makePipe (ok : F.RefsOk extra) {page : Nat} {f0 f1 : Fp}
    (differ : f0 ≠ f1) (kind0 : (F.ftable f0).kind = .none)
    (kind1 : (F.ftable f1).kind = .none) (used0 : 1 ≤ (F.ftable f0).ref)
    (used1 : 1 ≤ (F.ftable f1).ref) (fresh : F.allocated page = F.freed page) :
    (F.makePipe page f0 f1).RefsOk extra := by
  have refs (g : Fp) : ((F.makePipe page f0 f1).ftable g).ref = (F.ftable g).ref := by
    by_cases is1 : g = f1
    · subst is1
      simp [Files.makePipe, Files.setFile, Function.update_of_ne differ.symm]
    · by_cases is0 : g = f0
      · subst is0
        simp [Files.makePipe, Files.setFile, Function.update_of_ne is1]
      · simp [Files.makePipe, Files.setFile, Function.update_of_ne is1, Function.update_of_ne is0]
  refine ⟨fun g => ?_, fun g zero => ?_, ok.pipes.makePipe differ kind0 kind1 fresh⟩
  · rw [refs, Files.slots_of_same (by rfl : (F.makePipe page f0 f1).proc = F.proc)]
    exact ok.ref g
  · rw [refs] at zero
    have is0 : g ≠ f0 := by
      rintro rfl
      omega
    have is1 : g ≠ f1 := by
      rintro rfl
      omega
    simpa [Files.makePipe, Files.setFile, Function.update_of_ne is1, Function.update_of_ne is0]
      using ok.closed g zero

theorem refsOf_of_same {F' : Files} (ftable : F'.ftable = F.ftable) (proc : F'.proc = F.proc)
    (ip : Ip) : F'.refsOf ip = F.refsOf ip := by
  simp only [Files.refsOf, ftable, proc]

/-- A file becomes the end of a pipe. -/
theorem refsOf_setFile_pipe {page : Nat} {file : File} (before : (F.ftable f).kind = .none)
    (kind : file.kind = .pipe page) (ip : Ip) :
    (F.setFile f file).refsOf ip = F.refsOf ip := by
  have counted := Files.refsOf_setFile F f file ip
  have opened : file.opens ip = 0 := by simp [File.opens, kind]
  rw [opened, File.opens_of_none before] at counted
  exact counted

theorem refsOf_makePipe {page : Nat} {f0 f1 : Fp} (differ : f0 ≠ f1)
    (kind0 : (F.ftable f0).kind = .none) (kind1 : (F.ftable f1).kind = .none) (ip : Ip) :
    (F.makePipe page f0 f1).refsOf ip = F.refsOf ip := by
  unfold Files.makePipe
  refine (refsOf_setFile_pipe ?_ rfl ip).trans ?_
  · simpa [Files.setFile, Function.update_of_ne differ.symm] using kind1
  · refine (refsOf_setFile_pipe ?_ rfl ip).trans ?_
    · exact kind0
    · exact refsOf_of_same (by rfl) (by rfl) ip

theorem Files.Closed.sameProcs (closed : F.Closed f F') : F.SameProcs F' :=
  ⟨closed.1, closed.2.1⟩

/-- A reference that a call took is given up again. -/
theorem fileclose_taken (owns : Owns sound F (Files.shift extra f 1) more locked ops s)
    (nonneg : 0 ≤ extra f) :
    wp (Benign short) (fileclose f)
      (fun _ t => ∃ F', F.Closed f F' ∧ Owns sound F' extra more locked ops t) s := by
  have used : 1 ≤ (F.ftable f).ref := by
    refine owns.used ?_
    rw [Files.shift_apply, if_pos rfl]
    omega
  have closed : wp (Benign short) (fileclose f) _ s := fileclose_spec owns used
  rwa [Files.shift_shift] at closed

/-- What `pipealloc` returns: nothing, or two files that only the call has
references to. -/
def PipeMade (sound : Prop) (F : Files) (more : Ip → Nat) (locked : Locks) (ops : Nat)
    (made : Option (Fp × Fp)) (t : State) : Prop :=
  ∃ F', F.SameProcs F' ∧
    match made with
    | none => Owns sound F' (fun _ => 0) more locked ops t
    | some (f0, f1) => f0 ≠ f1 ∧
        Owns sound F' (Files.shift (Files.shift (fun _ => 0) f0 1) f1 1) more locked ops t

theorem pipealloc_spec (kalloc : Option Nat)
    (fresh : ∀ page, kalloc = some page → F.allocated page = F.freed page)
    (owns : Owns sound F (fun _ => 0) more locked ops s) :
    wp (Benign short) (pipealloc kalloc) (PipeMade sound F more locked ops) s := by
  simp only [pipealloc, wp_bind]
  refine wp_mono (filealloc_spec owns) fun first t one => ?_
  cases first with
  | none => exact ⟨F, ⟨rfl, rfl⟩, one⟩
  | some f0 =>
      obtain ⟨F₁, taken₁, one⟩ := one
      simp only [wp_bind]
      refine wp_mono (filealloc_spec one) fun second u two => ?_
      cases second with
      | none =>
          simp only [pipeallocBad, wp_bind, wp_pure]
          refine wp_mono (fileclose_taken two le_rfl) fun _ v closed => ?_
          obtain ⟨F', closed, owns⟩ := closed
          exact ⟨F', taken₁.procs.trans closed.sameProcs, owns⟩
      | some f1 =>
          obtain ⟨F₂, taken₂, two⟩ := two
          have differ : f0 ≠ f1 := by
            rintro rfl
            have zero := taken₂.before
            rw [taken₁.ref] at zero
            cases zero
          have procs := taken₁.procs.trans taken₂.procs
          cases kalloc with
          | none =>
              simp only [pipeallocBad, wp_bind, wp_pure]
              rw [Files.shift_comm] at two
              refine wp_mono (fileclose_taken two ?_) fun _ v closed => ?_
              · rw [Files.shift_apply, if_neg differ.symm]
                omega
              obtain ⟨F₃, closed₃, three⟩ := closed
              refine wp_mono (fileclose_taken three le_rfl) fun _ w closed => ?_
              obtain ⟨F₄, closed₄, four⟩ := closed
              exact ⟨F₄, procs.trans (closed₃.sameProcs.trans closed₄.sameProcs), four⟩
          | some page =>
              simp only [getFiles, setFiles, wp_bind, wp_get, wp_modify, wp_pure, two.files]
              have kept := taken₂.others f0 differ
              have kind0 : (F₂.ftable f0).kind = .none := kept ▸ taken₁.kind
              have used0 : 1 ≤ (F₂.ftable f0).ref := by rw [kept, taken₁.ref]
              have unused : F₂.allocated page = F₂.freed page := by
                rw [taken₂.allocated, taken₂.freed, taken₁.allocated, taken₁.freed]
                exact fresh page rfl
              refine ⟨F₂.makePipe page f0 f1, procs.trans ⟨rfl, rfl⟩, differ,
                two.setFiles (two.ok.makePipe differ kind0 taken₂.kind used0
                  taken₂.ref.ge unused) fun ip => ?_⟩
              rw [refsOf_makePipe differ kind0 taken₂.kind]

end Xv6.Calls
