import Mathlib.Data.List.Nodup
import Mathlib.Logic.Function.Basic
import Xv6.LabelledRuns

/-!
# The queue of the disk driver

`iderw` appends a buffer to a queue and sleeps, the drive performs one command at a
time, and `ideintr` ends the request of the first buffer and starts the next one.
The interrupt handler may run at any time, and processes may be woken for other
reasons.
-/

namespace Xv6.Ide

/-! ## Reads and writes -/

/-- The drive and the block number. -/
abbrev Sector := Nat × Nat

/-- What a request has done. -/
inductive Access (Data : Type*) where
  | read (sector : Sector) (data : Data)
  | write (sector : Sector) (data : Data)

section Histories

variable {Data : Type*}

abbrev Contents (Data : Type*) := Sector → Data

/-- The contents after some accesses. -/
def replay (disk : Contents Data) : List (Access Data) → Contents Data
  | [] => disk
  | .read _ _ :: rest => replay disk rest
  | .write sector data :: rest => replay (Function.update disk sector data) rest

/-- Every read returns what was written last. -/
def Legal (disk : Contents Data) : List (Access Data) → Prop
  | [] => True
  | .read sector data :: rest => data = disk sector ∧ Legal disk rest
  | .write sector data :: rest => Legal (Function.update disk sector data) rest

theorem replay_append (disk : Contents Data) (first second : List (Access Data)) :
    replay disk (first ++ second) = replay (replay disk first) second := by
  induction first generalizing disk with
  | nil => rfl
  | cons access rest ih =>
      cases access with
      | read sector data => exact ih disk
      | write sector data => exact ih _

theorem legal_append (disk : Contents Data) (first second : List (Access Data)) :
    Legal disk (first ++ second) ↔ Legal disk first ∧ Legal (replay disk first) second := by
  induction first generalizing disk with
  | nil => exact iff_of_eq (true_and _).symm
  | cons access rest ih =>
      cases access with
      | read sector data =>
          rw [List.cons_append, Legal, Legal, ih, and_assoc]
          rfl
      | write sector data =>
          rw [List.cons_append, Legal, Legal, ih]
          rfl

end Histories

/-! ## The driver -/

/-- `struct buf`, as far as the driver uses it. -/
structure Buffer (Data : Type*) where
  dev : Nat
  blockno : Nat
  valid : Bool
  dirty : Bool
  data : Data

/-- The flags are `B_VALID` alone. -/
def Buffer.Done {Data : Type*} (b : Buffer Data) : Prop := b.valid = true ∧ b.dirty = false

instance {Data : Type*} (b : Buffer Data) : Decidable b.Done :=
  inferInstanceAs (Decidable (_ ∧ _))

def Buffer.sector {Data : Type*} (b : Buffer Data) : Sector := (b.dev % 2, b.blockno)

/-- The messages of `panic`. -/
inductive Panic where
  /-- "iderw: buf not locked" -/
  | notLocked
  /-- "iderw: nothing to do" -/
  | nothingToDo
  /-- "iderw: ide disk 1 not present" -/
  | noDisk1
  /-- "incorrect blockno" -/
  | incorrectBlockno

/-- A command to the drive. -/
inductive Command (Data : Type*) where
  | read (sector : Sector)
  | write (sector : Sector) (data : Data)

/-- `FSSIZE` -/
abbrev fssize : Nat := 1000

/-- The drive has a command until it has performed it; `latch` is what it has read and
`failed` is its error flag.  A process in `iderw` has its buffer and may be asleep.
The history of the requests is not in the source. -/
structure State (Buf Proc Data : Type*) where
  bufs : Buf → Buffer Data
  holder : Buf → Option Proc
  queue : List Buf
  procs : Proc → Option (Buf × Bool)
  command : Option (Command Data)
  latch : Data
  failed : Bool
  disk : Contents Data
  havedisk1 : Bool
  halted : Option Panic
  history : List (Access Data)

inductive Event (Buf Proc Data : Type*) where
  /-- `acquiresleep` -/
  | lock (p : Proc) (b : Buf)
  /-- `releasesleep` -/
  | unlock (p : Proc) (b : Buf)
  /-- the holder of a buffer changes it -/
  | change (p : Proc) (b : Buf) (buf : Buffer Data)
  | iderw (p : Proc) (b : Buf)
  | ideintr
  /-- the drive performs its command, or fails -/
  | perform (error : Bool)
  /-- a process in `iderw` is woken -/
  | wake (p : Proc)
  /-- a process in `iderw` looks at the flags -/
  | recheck (p : Proc)

section Steps

variable {Buf Proc Data : Type*} [DecidableEq Buf] [DecidableEq Proc]

/-- The drive performs its command. -/
def perform (s : State Buf Proc Data) (error : Bool) : State Buf Proc Data :=
  match s.command with
  | none => s
  | some (.read sector) =>
      { s with
        command := none
        failed := error
        latch := if error then s.latch else s.disk sector }
  | some (.write sector data) =>
      { s with
        command := none
        failed := error
        disk := if error then s.disk else Function.update s.disk sector data }

/-- `idewait`: the drive has performed its command. -/
def idewait (s : State Buf Proc Data) : State Buf Proc Data := perform s false

/-- The command for a buffer. -/
def Buffer.command (buf : Buffer Data) : Command Data :=
  if buf.dirty then .write buf.sector buf.data else .read buf.sector

/-- `idestart` -/
def idestart (s : State Buf Proc Data) (b : Buf) : State Buf Proc Data :=
  let buf := s.bufs b
  if fssize ≤ buf.blockno then { s with halted := some .incorrectBlockno }
  else
    { idewait s with command := some buf.command }

/-- `iderw`, up to its first `sleep`. -/
def iderw (s : State Buf Proc Data) (p : Proc) (b : Buf) : State Buf Proc Data :=
  let buf := s.bufs b
  if s.holder b ≠ some p then { s with halted := some .notLocked }
  else if buf.Done then { s with halted := some .nothingToDo }
  else if buf.dev ≠ 0 ∧ ¬s.havedisk1 then { s with halted := some .noDisk1 }
  else
    let s1 := { s with
      queue := s.queue ++ [b]
      procs := Function.update s.procs p (some (b, true)) }
    if s1.queue.head? = some b then idestart s1 b else s1

/-- Wake the processes that sleep on the buffer. -/
def wakeup (procs : Proc → Option (Buf × Bool)) (b : Buf) : Proc → Option (Buf × Bool) :=
  fun p => match procs p with
    | some (c, asleep) => some (c, asleep && decide (c ≠ b))
    | none => none

/-- `ideintr` until it has woken the processes that wait for the first buffer. -/
def complete (s : State Buf Proc Data) (b : Buf) (rest : List Buf) : State Buf Proc Data :=
  let buf := s.bufs b
  let s := if buf.dirty then s else idewait s
  let data := if buf.dirty ∨ s.failed then buf.data else s.latch
  let access : Access Data :=
    if buf.dirty then .write buf.sector data else .read buf.sector data
  { s with
    queue := rest
    bufs := Function.update s.bufs b { buf with valid := true, dirty := false, data := data }
    procs := wakeup s.procs b
    history := s.history ++ [access] }

/-- `ideintr` -/
def ideintr (s : State Buf Proc Data) : State Buf Proc Data :=
  match s.queue with
  | [] => s
  | b :: rest =>
      let s := complete s b rest
      match rest with
      | [] => s
      | c :: _ => idestart s c

def step (s : State Buf Proc Data) (event : Event Buf Proc Data) :
    Option (State Buf Proc Data) :=
  if s.halted.isSome then none
  else match event with
  | .lock p b =>
      if s.procs p = none ∧ s.holder b = none then
        some { s with holder := Function.update s.holder b (some p) }
      else none
  | .unlock p b =>
      if s.procs p = none ∧ s.holder b = some p then
        some { s with holder := Function.update s.holder b none }
      else none
  | .change p b buf =>
      if s.procs p = none ∧ s.holder b = some p then
        some { s with bufs := Function.update s.bufs b buf }
      else none
  | .iderw p b => if s.procs p = none then some (iderw s p b) else none
  | .ideintr => some (ideintr s)
  | .perform error => some (perform s error)
  | .wake p =>
      match s.procs p with
      | some (b, _) => some { s with procs := Function.update s.procs p (some (b, false)) }
      | none => none
  | .recheck p =>
      match s.procs p with
      | some (b, false) =>
          let now := if (s.bufs b).Done then none else some (b, true)
          some { s with procs := Function.update s.procs p now }
      | _ => none

/-- A buffer is read or written only by who has locked it, when there is something to
do, and the drive does not fail. -/
def Proper (s : State Buf Proc Data) : Event Buf Proc Data → Prop
  | .iderw p b => s.holder b = some p ∧ ¬(s.bufs b).Done ∧ (s.bufs b).blockno < fssize ∧
      ((s.bufs b).dev = 0 ∨ s.havedisk1 = true)
  | .perform error => error = false
  | _ => True

instance (s : State Buf Proc Data) (event : Event Buf Proc Data) : Decidable (Proper s event) :=
  match event with
  | .iderw _ _ => inferInstanceAs (Decidable (_ ∧ _ ∧ _ ∧ _))
  | .perform _ => inferInstanceAs (Decidable (_ = _))
  | .lock _ _ | .unlock _ _ | .change _ _ _ | .ideintr | .wake _ | .recheck _ =>
      inferInstanceAs (Decidable True)

end Steps

/-! ## The drive -/

section Drive

variable {Buf Proc Data : Type*}
  {s : State Buf Proc Data} {b : Buf} {init : Contents Data}

/-- What is on the disk when the command has been performed. -/
def view (s : State Buf Proc Data) : Contents Data :=
  match s.command with
  | some (.write sector data) => Function.update s.disk sector data
  | _ => s.disk

/-- The contents after the request for a buffer has been started. -/
def started (disk : Contents Data) (buf : Buffer Data) : Contents Data :=
  if buf.dirty then Function.update disk buf.sector buf.data else disk

theorem idewait_frame (s : State Buf Proc Data) :
    (idewait s).bufs = s.bufs ∧ (idewait s).holder = s.holder ∧ (idewait s).queue = s.queue ∧
      (idewait s).procs = s.procs ∧ (idewait s).halted = s.halted ∧
      (idewait s).history = s.history := by
  unfold idewait perform
  split <;> exact ⟨rfl, rfl, rfl, rfl, rfl, rfl⟩

theorem idewait_drive (s : State Buf Proc Data) :
    (idewait s).command = none ∧ (idewait s).disk = view s := by
  unfold idewait perform view
  split
  · next none' => rw [none']; exact ⟨rfl, rfl⟩
  · next isRead => rw [isRead]; exact ⟨rfl, rfl⟩
  · next isWrite => rw [isWrite]; exact ⟨rfl, rfl⟩

theorem view_idewait (s : State Buf Proc Data) : view (idewait s) = view s := by
  obtain ⟨none', disk⟩ := idewait_drive s
  rw [← disk]
  unfold view
  rw [none']

/-- `idestart`, for a block of the disk. -/
theorem idestart_eq (small : (s.bufs b).blockno < fssize) :
    idestart s b = { idewait s with command := some (s.bufs b).command } := by
  simp only [idestart, if_neg (Nat.not_le.mpr small)]

theorem view_idestart (small : (s.bufs b).blockno < fssize) :
    view (idestart s b) = started (view s) (s.bufs b) := by
  rw [idestart_eq small, ← (idewait_drive s).2]
  unfold started view Buffer.command
  cases (s.bufs b).dirty <;> rfl

theorem idestart_frame (s : State Buf Proc Data) (b : Buf) :
    (idestart s b).bufs = s.bufs ∧ (idestart s b).queue = s.queue ∧
      (idestart s b).procs = s.procs := by
  obtain ⟨bufs, -, queue, procs, -, -⟩ := idewait_frame s
  simp only [idestart]
  split
  · exact ⟨rfl, rfl, rfl⟩
  · exact ⟨bufs, queue, procs⟩

end Drive

/-! ## What holds in every state -/

section Invariant

variable {Buf Proc Data : Type*}
  {s s' : State Buf Proc Data} {b : Buf} {p : Proc} {init : Contents Data}

/-- Who waits for which buffer. -/
structure QueueOk (bufs : Buf → Buffer Data) (holder : Buf → Option Proc) (queue : List Buf)
    (procs : Proc → Option (Buf × Bool)) : Prop where
  nodup : queue.Nodup
  waits : ∀ b ∈ queue, ∃ p asleep, procs p = some (b, asleep)
  locked : ∀ p b asleep, procs p = some (b, asleep) → holder b = some p
  todo : ∀ b ∈ queue, ¬(bufs b).Done ∧ (bufs b).blockno < fssize
  served : ∀ p b asleep, procs p = some (b, asleep) → b ∈ queue ∨ (bufs b).Done
  asleep : ∀ p b, procs p = some (b, true) → b ∈ queue

/-- The drive works for the first buffer of the queue, after all requests of the
history. -/
structure DriveOk (init : Contents Data) (s : State Buf Proc Data) : Prop where
  legal : Legal init s.history
  idle : s.queue = [] → view s = replay init s.history
  active : ∀ b rest, s.queue = b :: rest →
    view s = started (replay init s.history) (s.bufs b)
  reading : ∀ b rest, s.queue = b :: rest → (s.bufs b).dirty = false →
    s.command = some (.read (s.bufs b).sector) ∨
      s.command = none ∧ s.failed = false ∧ s.latch = s.disk (s.bufs b).sector

structure Ok (init : Contents Data) (s : State Buf Proc Data) : Prop where
  running : s.halted = none
  queue : QueueOk s.bufs s.holder s.queue s.procs
  drive : DriveOk init s

/-- The holder of a buffer in the queue is in `iderw`. -/
theorem QueueOk.not_mem {bufs : Buf → Buffer Data} {holder : Buf → Option Proc}
    {queue : List Buf} {procs : Proc → Option (Buf × Bool)}
    (ok : QueueOk bufs holder queue procs) (isHolder : holder b = some p)
    (outside : procs p = none) : b ∉ queue ∧ ∀ q asleep, procs q ≠ some (b, asleep) := by
  have nobody (q : Proc) (asleep : Bool) : procs q ≠ some (b, asleep) := by
    intro inside
    have same := Option.some.inj ((ok.locked q b asleep inside).symm.trans isHolder)
    rw [same, outside] at inside
    cases inside
  refine ⟨?_, nobody⟩
  intro isQueued
  obtain ⟨q, asleep, inside⟩ := ok.waits b isQueued
  exact nobody q asleep inside

theorem DriveOk.idewait (ok : DriveOk init s) : DriveOk init (idewait s) := by
  obtain ⟨bufs, -, queue, -, -, history⟩ := idewait_frame s
  obtain ⟨none', disk⟩ := idewait_drive s
  refine ⟨?_, ?_, ?_, ?_⟩
  · rw [history]
    exact ok.legal
  · rw [queue, history, view_idewait]
    exact ok.idle
  · rw [queue, history, view_idewait, bufs]
    exact ok.active
  · intro b rest isFirst clean
    rw [queue] at isFirst
    rw [bufs] at clean ⊢
    refine .inr ⟨none', ?_⟩
    rcases ok.reading b rest isFirst clean with isRead | ⟨isNone, ready⟩
    · simp only [Ide.idewait, perform, isRead, Bool.false_eq_true, if_false, true_and]
    · simp only [Ide.idewait, perform, isNone]
      exact ready

/-- A request is started when all requests before it have ended. -/
theorem driveOk_idestart {rest : List Buf} (legal : Legal init s.history)
    (first : s.queue = b :: rest) (small : (s.bufs b).blockno < fssize)
    (before : view s = replay init s.history) : DriveOk init (idestart s b) := by
  obtain ⟨bufs, -, queue, -, -, history⟩ := idewait_frame s
  have shown := view_idestart small
  rw [idestart_eq small] at shown ⊢
  refine ⟨?_, ?_, ?_, ?_⟩
  · exact history ▸ legal
  · intro empty
    change (idewait s).queue = [] at empty
    rw [queue, first] at empty
    cases empty
  · intro c more isFirst
    change (idewait s).queue = c :: more at isFirst
    rw [queue, first] at isFirst
    cases isFirst
    rw [shown, before]
    change _ = started (replay init (idewait s).history) ((idewait s).bufs b)
    rw [history, bufs]
  · intro c more isFirst clean
    change (idewait s).queue = c :: more at isFirst
    rw [queue, first] at isFirst
    cases isFirst
    change ((idewait s).bufs b).dirty = false at clean
    left
    change some (s.bufs b).command = some (.read ((idewait s).bufs b).sector)
    rw [bufs] at clean ⊢
    unfold Buffer.command
    rw [clean]
    rfl

theorem ok_idestart {rest : List Buf} (running : s.halted = none)
    (queueOk : QueueOk s.bufs s.holder s.queue s.procs) (legal : Legal init s.history)
    (first : s.queue = b :: rest) (before : view s = replay init s.history) :
    Ok init (idestart s b) := by
  have small := (queueOk.todo b (first ▸ List.mem_cons_self)).2
  refine ⟨?_, ?_, driveOk_idestart legal first small before⟩
  · rw [idestart_eq small]
    exact (idewait_frame s).2.2.2.2.1.trans running
  · obtain ⟨bufs, holder, queue, procs, -, -⟩ := idewait_frame s
    rw [idestart_eq small]
    change QueueOk (idewait s).bufs (idewait s).holder (idewait s).queue (idewait s).procs
    rw [bufs, holder, queue, procs]
    exact queueOk

/-- Nobody is in `iderw`, and the drive has nothing to do. -/
structure Fresh (s : State Buf Proc Data) : Prop where
  running : s.halted = none
  queue : s.queue = []
  procs : ∀ p, s.procs p = none
  command : s.command = none
  history : s.history = []

theorem Fresh.ok (fresh : Fresh s) : Ok s.disk s := by
  have nobody {p : Proc} {entry : Buf × Bool} : s.procs p ≠ some entry := by
    rw [fresh.procs]
    rintro ⟨⟩
  refine ⟨fresh.running, ⟨?_, ?_, ?_, ?_, ?_, ?_⟩, ⟨?_, ?_, ?_, ?_⟩⟩
  · rw [fresh.queue]
    exact List.nodup_nil
  · intro b isQueued
    rw [fresh.queue] at isQueued
    cases isQueued
  · exact fun p b asleep inside => absurd inside nobody
  · intro b isQueued
    rw [fresh.queue] at isQueued
    cases isQueued
  · exact fun p b asleep inside => absurd inside nobody
  · exact fun p b inside => absurd inside nobody
  · rw [fresh.history]
    trivial
  · intro _
    rw [fresh.history]
    unfold view
    rw [fresh.command]
    rfl
  · intro b rest first
    rw [fresh.queue] at first
    cases first
  · intro b rest first
    rw [fresh.queue] at first
    cases first

section Processes

variable [DecidableEq Proc] {bufs : Buf → Buffer Data} {holder : Buf → Option Proc}
  {queue : List Buf} {procs : Proc → Option (Buf × Bool)}

/-- The buffer waits behind the others. -/
theorem QueueOk.append (ok : QueueOk bufs holder queue procs) (isHolder : holder b = some p)
    (outside : procs p = none) (todo : ¬(bufs b).Done ∧ (bufs b).blockno < fssize) :
    QueueOk bufs holder (queue ++ [b]) (Function.update procs p (some (b, true))) := by
  obtain ⟨notQueued, -⟩ := ok.not_mem isHolder outside
  have isLast : b ∈ queue ++ [b] := List.mem_append_right _ (List.mem_singleton_self b)
  refine ⟨?_, ?_, ?_, ?_, ?_, ?_⟩
  · rw [List.nodup_append]
    refine ⟨ok.nodup, List.nodup_singleton b, ?_⟩
    intro c isQueued d isNew same
    rw [List.mem_singleton] at isNew
    rw [same, isNew] at isQueued
    exact notQueued isQueued
  · intro c isQueued
    rcases List.mem_append.mp isQueued with isQueued | isNew
    · obtain ⟨q, asleep, inside⟩ := ok.waits c isQueued
      have other : q ≠ p := by
        rintro rfl
        rw [outside] at inside
        cases inside
      exact ⟨q, asleep, by rw [Function.update_of_ne other, inside]⟩
    · rw [List.mem_singleton] at isNew
      exact ⟨p, true, by rw [Function.update_self, isNew]⟩
  · intro q c asleep inside
    by_cases isSelf : q = p
    · subst isSelf
      rw [Function.update_self] at inside
      cases inside
      exact isHolder
    · rw [Function.update_of_ne isSelf] at inside
      exact ok.locked q c asleep inside
  · intro c isQueued
    rcases List.mem_append.mp isQueued with isQueued | isNew
    · exact ok.todo c isQueued
    · rw [List.mem_singleton] at isNew
      exact isNew ▸ todo
  · intro q c asleep inside
    by_cases isSelf : q = p
    · subst isSelf
      rw [Function.update_self] at inside
      cases inside
      exact .inl isLast
    · rw [Function.update_of_ne isSelf] at inside
      exact (ok.served q c asleep inside).imp_left (List.mem_append_left _)
  · intro q c inside
    by_cases isSelf : q = p
    · subst isSelf
      rw [Function.update_self] at inside
      cases inside
      exact isLast
    · rw [Function.update_of_ne isSelf] at inside
      exact List.mem_append_left _ (ok.asleep q c inside)

/-- A process in `iderw` sleeps or is awake. -/
theorem QueueOk.setAsleep {before : Bool} (ok : QueueOk bufs holder queue procs)
    (inside : procs p = some (b, before)) (asleep : Bool)
    (todo : asleep = true → ¬(bufs b).Done) :
    QueueOk bufs holder queue (Function.update procs p (some (b, asleep))) := by
  have was {q : Proc} {c : Buf} {now : Bool}
      (isInside : Function.update procs p (some (b, asleep)) q = some (c, now)) :
      ∃ before, procs q = some (c, before) := by
    by_cases isSelf : q = p
    · subst isSelf
      rw [Function.update_self] at isInside
      cases isInside
      exact ⟨before, inside⟩
    · rw [Function.update_of_ne isSelf] at isInside
      exact ⟨now, isInside⟩
  refine ⟨ok.nodup, ?_, ?_, ok.todo, ?_, ?_⟩
  · intro c isQueued
    obtain ⟨q, now, isInside⟩ := ok.waits c isQueued
    by_cases isSelf : q = p
    · subst isSelf
      rw [inside] at isInside
      cases isInside
      exact ⟨q, asleep, Function.update_self _ _ _⟩
    · exact ⟨q, now, by rw [Function.update_of_ne isSelf, isInside]⟩
  · intro q c now isInside
    obtain ⟨before, isInside⟩ := was isInside
    exact ok.locked q c before isInside
  · intro q c now isInside
    obtain ⟨before, isInside⟩ := was isInside
    exact ok.served q c before isInside
  · intro q c isInside
    by_cases isSelf : q = p
    · subst isSelf
      rw [Function.update_self] at isInside
      cases isInside
      exact (ok.served q b before inside).resolve_right (todo rfl)
    · rw [Function.update_of_ne isSelf] at isInside
      exact ok.asleep q c isInside

/-- A process leaves `iderw`. -/
theorem QueueOk.leave {before : Bool} (ok : QueueOk bufs holder queue procs)
    (inside : procs p = some (b, before)) (done : (bufs b).Done) :
    QueueOk bufs holder queue (Function.update procs p none) := by
  have was {q : Proc} {c : Buf} {now : Bool}
      (isInside : Function.update procs p none q = some (c, now)) :
      procs q = some (c, now) := by
    by_cases isSelf : q = p
    · rw [isSelf, Function.update_self] at isInside
      cases isInside
    · rwa [Function.update_of_ne isSelf] at isInside
  refine ⟨ok.nodup, ?_, ?_, ok.todo, ?_, ?_⟩
  · intro c isQueued
    obtain ⟨q, now, isInside⟩ := ok.waits c isQueued
    have other : q ≠ p := by
      rintro rfl
      rw [inside] at isInside
      cases isInside
      exact (ok.todo b isQueued).1 done
    exact ⟨q, now, by rw [Function.update_of_ne other, isInside]⟩
  · exact fun q c now isInside => ok.locked q c now (was isInside)
  · exact fun q c now isInside => ok.served q c now (was isInside)
  · exact fun q c isInside => ok.asleep q c (was isInside)

end Processes

section Buffers

variable [DecidableEq Buf]

theorem of_wakeup {procs : Proc → Option (Buf × Bool)} {c : Buf} {asleep : Bool}
    (inside : wakeup procs b p = some (c, asleep)) :
    ∃ before, procs p = some (c, before) ∧ (asleep = true → before = true ∧ c ≠ b) := by
  unfold wakeup at inside
  cases found : procs p with
  | none =>
      rw [found] at inside
      cases inside
  | some entry =>
      obtain ⟨d, before⟩ := entry
      rw [found] at inside
      cases inside
      refine ⟨before, rfl, ?_⟩
      intro isAsleep
      rw [Bool.and_eq_true, decide_eq_true_eq] at isAsleep
      exact isAsleep

/-- The request of the first buffer ends. -/
theorem QueueOk.complete {bufs : Buf → Buffer Data} {holder : Buf → Option Proc}
    {rest : List Buf} {procs : Proc → Option (Buf × Bool)} {buf : Buffer Data}
    (ok : QueueOk bufs holder (b :: rest) procs) (done : buf.Done) :
    QueueOk (Function.update bufs b buf) holder rest (wakeup procs b) := by
  obtain ⟨notLeft, nodup⟩ := List.nodup_cons.mp ok.nodup
  have other {c : Buf} (isQueued : c ∈ rest) : c ≠ b := by
    rintro rfl
    exact notLeft isQueued
  refine ⟨nodup, ?_, ?_, ?_, ?_, ?_⟩
  · intro c isQueued
    obtain ⟨q, asleep, inside⟩ := ok.waits c (List.mem_cons_of_mem b isQueued)
    exact ⟨q, asleep && decide (c ≠ b), by unfold wakeup; rw [inside]⟩
  · intro q c asleep inside
    obtain ⟨before, was, -⟩ := of_wakeup inside
    exact ok.locked q c before was
  · intro c isQueued
    rw [Function.update_of_ne (other isQueued)]
    exact ok.todo c (List.mem_cons_of_mem b isQueued)
  · intro q c asleep inside
    obtain ⟨before, was, -⟩ := of_wakeup inside
    by_cases isFirst : c = b
    · right
      rw [isFirst, Function.update_self]
      exact done
    · rw [Function.update_of_ne isFirst]
      refine (ok.served q c before was).imp_left ?_
      intro isQueued
      exact (List.mem_cons.mp isQueued).resolve_left isFirst
  · intro q c inside
    obtain ⟨before, was, stays⟩ := of_wakeup inside
    obtain ⟨rfl, notFirst⟩ := stays rfl
    exact (List.mem_cons.mp (ok.asleep q c was)).resolve_left notFirst

/-- A read returns what the requests before it have left. -/
theorem complete_history {rest : List Buf} (ok : DriveOk init s) (first : s.queue = b :: rest) :
    Legal init (complete s b rest).history ∧
      view (complete s b rest) = replay init (complete s b rest).history := by
  have active := ok.active b rest first
  cases dirty : (s.bufs b).dirty with
  | true =>
      have history : (complete s b rest).history =
          s.history ++ [.write (s.bufs b).sector (s.bufs b).data] := by
        simp only [complete, dirty, true_or, if_true]
      have shown : view (complete s b rest) = view s := by
        simp only [complete, dirty, if_true]
        rfl
      unfold started at active
      rw [dirty, if_pos rfl] at active
      rw [history, shown, active, legal_append, replay_append]
      exact ⟨⟨ok.legal, trivial⟩, rfl⟩
  | false =>
      obtain ⟨bufs, -, queue, -, -, kept⟩ := idewait_frame s
      obtain ⟨none', disk⟩ := idewait_drive s
      have ready : (idewait s).failed = false ∧
          (idewait s).latch = (idewait s).disk (s.bufs b).sector := by
        have clean : ((idewait s).bufs b).dirty = false := by rw [bufs, dirty]
        rcases ok.idewait.reading b rest (queue.trans first) clean with isRead | ⟨-, ready⟩
        · rw [none'] at isRead
          cases isRead
        · rwa [bufs] at ready
      unfold started at active
      rw [dirty, if_neg (by decide)] at active
      have history : (complete s b rest).history =
          s.history ++ [.read (s.bufs b).sector (view s (s.bufs b).sector)] := by
        simp only [complete, dirty, Bool.false_eq_true, if_false, ready.1, or_self, kept]
        rw [ready.2, disk]
      have shown : view (complete s b rest) = view s := by
        rw [← view_idewait s]
        simp only [complete, dirty, Bool.false_eq_true, if_false]
        rfl
      rw [history, shown, active, legal_append, replay_append]
      exact ⟨⟨ok.legal, rfl, trivial⟩, rfl⟩

theorem complete_queue {rest : List Buf} (ok : Ok init s) (first : s.queue = b :: rest) :
    (complete s b rest).halted = none ∧ QueueOk (complete s b rest).bufs
      (complete s b rest).holder (complete s b rest).queue (complete s b rest).procs := by
  have queueOk := ok.queue
  rw [first] at queueOk
  cases dirty : (s.bufs b).dirty with
  | true =>
      simp only [complete, dirty, if_true]
      exact ⟨ok.running, queueOk.complete ⟨rfl, rfl⟩⟩
  | false =>
      obtain ⟨bufs, holder, -, procs, halted, -⟩ := idewait_frame s
      simp only [complete, dirty, Bool.false_eq_true, if_false, bufs, holder, procs, halted]
      exact ⟨ok.running, queueOk.complete ⟨rfl, rfl⟩⟩

theorem ok_ideintr (ok : Ok init s) : Ok init (ideintr s) := by
  cases first : s.queue with
  | nil =>
      simp only [ideintr, first]
      exact ok
  | cons b rest =>
      obtain ⟨running, queueOk⟩ := complete_queue ok first
      obtain ⟨legal, shown⟩ := complete_history ok.drive first
      cases rest with
      | nil =>
          simp only [ideintr, first]
          refine ⟨running, queueOk, legal, fun _ => shown, ?_, ?_⟩
          · rintro c more ⟨⟩
          · rintro c more ⟨⟩
      | cons c rest =>
          simp only [ideintr, first]
          exact ok_idestart running queueOk legal rfl shown

/-- The request of the first buffer has ended, and its process is awake. -/
theorem ideintr_serves {rest : List Buf} (first : s.queue = b :: rest) :
    (ideintr s).queue = rest ∧ ((ideintr s).bufs b).Done ∧
      ∀ p asleep, s.procs p = some (b, asleep) → (ideintr s).procs p = some (b, false) := by
  obtain ⟨-, -, -, procs, -, -⟩ := idewait_frame s
  have done : ((complete s b rest).bufs b).Done := by
    simp only [complete, Function.update_self]
    exact ⟨rfl, rfl⟩
  have woken : (complete s b rest).procs = wakeup s.procs b := by
    simp only [complete]
    split
    · rfl
    · rw [procs]
  have same : (ideintr s).bufs = (complete s b rest).bufs ∧ (ideintr s).queue = rest ∧
      (ideintr s).procs = (complete s b rest).procs := by
    cases rest with
    | nil =>
        simp only [ideintr, first]
        exact ⟨trivial, rfl, trivial⟩
    | cons c rest =>
        simp only [ideintr, first]
        exact idestart_frame _ c
  rw [same.1, same.2.2, woken]
  refine ⟨same.2.1, done, ?_⟩
  intro p asleep inside
  simp only [wakeup, inside, ne_eq, not_true, decide_false, Bool.and_false]

section Parts

variable {bufs : Buf → Buffer Data} {holder : Buf → Option Proc} {queue : List Buf}
  {procs : Proc → Option (Buf × Bool)}

theorem QueueOk.lock (ok : QueueOk bufs holder queue procs) (free : holder b = none) :
    QueueOk bufs (Function.update holder b (some p)) queue procs := by
  refine ⟨ok.nodup, ok.waits, ?_, ok.todo, ok.served, ok.asleep⟩
  intro q c asleep inside
  have isHolder := ok.locked q c asleep inside
  have other : c ≠ b := by
    rintro rfl
    rw [free] at isHolder
    cases isHolder
  rw [Function.update_of_ne other, isHolder]

theorem QueueOk.unlock (ok : QueueOk bufs holder queue procs) (mine : holder b = some p)
    (outside : procs p = none) : QueueOk bufs (Function.update holder b none) queue procs := by
  refine ⟨ok.nodup, ok.waits, ?_, ok.todo, ok.served, ok.asleep⟩
  intro q c asleep inside
  have other : c ≠ b := by
    rintro rfl
    exact (ok.not_mem mine outside).2 q asleep inside
  rw [Function.update_of_ne other]
  exact ok.locked q c asleep inside

theorem QueueOk.change (ok : QueueOk bufs holder queue procs) (mine : holder b = some p)
    (outside : procs p = none) (buf : Buffer Data) :
    QueueOk (Function.update bufs b buf) holder queue procs := by
  obtain ⟨notQueued, nobody⟩ := ok.not_mem mine outside
  refine ⟨ok.nodup, ok.waits, ok.locked, ?_, ?_, ok.asleep⟩
  · intro c isQueued
    have other : c ≠ b := by
      rintro rfl
      exact notQueued isQueued
    rw [Function.update_of_ne other]
    exact ok.todo c isQueued
  · intro q c asleep inside
    have other : c ≠ b := by
      rintro rfl
      exact nobody q asleep inside
    rw [Function.update_of_ne other]
    exact ok.served q c asleep inside

end Parts

theorem DriveOk.change (ok : DriveOk init s) (notQueued : b ∉ s.queue) (buf : Buffer Data) :
    DriveOk init { s with bufs := Function.update s.bufs b buf } := by
  have same {c : Buf} (isQueued : c ∈ s.queue) :
      Function.update s.bufs b buf c = s.bufs c := by
    apply Function.update_of_ne
    rintro rfl
    exact notQueued isQueued
  refine ⟨ok.legal, ok.idle, ?_, ?_⟩
  · intro c rest first
    change _ = started _ (Function.update s.bufs b buf c)
    rw [same (first ▸ List.mem_cons_self)]
    exact ok.active c rest first
  · intro c rest first
    change (Function.update s.bufs b buf c).dirty = false →
      s.command = some (.read (Function.update s.bufs b buf c).sector) ∨ s.command = none ∧
        s.failed = false ∧ s.latch = s.disk (Function.update s.bufs b buf c).sector
    rw [same (first ▸ List.mem_cons_self)]
    exact ok.reading c rest first

end Buffers

variable [DecidableEq Buf] [DecidableEq Proc]

theorem ok_iderw (ok : Ok init s) (outside : s.procs p = none)
    (proper : Proper s (.iderw p b)) : Ok init (iderw s p b) := by
  obtain ⟨isHolder, todo, small, present⟩ := proper
  have here : ¬((s.bufs b).dev ≠ 0 ∧ ¬s.havedisk1 = true) := by
    rintro ⟨isOne, missing⟩
    exact present.elim isOne missing
  obtain ⟨notQueued, -⟩ := ok.queue.not_mem isHolder outside
  have appended := ok.queue.append isHolder outside ⟨todo, small⟩
  simp only [iderw, isHolder, ne_eq, not_true, if_false, if_neg todo, if_neg here]
  cases queueEq : s.queue with
  | nil =>
      rw [queueEq] at appended
      rw [List.nil_append, List.head?_cons, if_pos rfl]
      exact ok_idestart ok.running appended ok.drive.legal rfl (ok.drive.idle queueEq)
  | cons c rest =>
      have other : ¬some c = some b := by
        intro same
        rw [queueEq, Option.some.inj same] at notQueued
        exact notQueued List.mem_cons_self
      rw [queueEq] at appended
      rw [List.cons_append, List.head?_cons, if_neg other]
      refine ⟨ok.running, appended, ok.drive.legal, ?_, ?_, ?_⟩
      · rintro ⟨⟩
      · rintro d more ⟨⟩
        exact ok.drive.active c rest queueEq
      · rintro d more ⟨⟩
        exact ok.drive.reading c rest queueEq

theorem ok_step {event : Event Buf Proc Data} (ok : Ok init s) (proper : Proper s event)
    (stepped : step s event = some s') : Ok init s' := by
  have queueOk := ok.queue
  have drive := ok.drive
  have running : ¬s.halted.isSome = true := by
    rw [ok.running]
    decide
  unfold step at stepped
  rw [if_neg running] at stepped
  cases event with
  | lock p b =>
      simp only at stepped
      split at stepped
      · next free =>
        cases stepped
        exact ⟨ok.running, queueOk.lock free.2,
          ⟨drive.legal, drive.idle, drive.active, drive.reading⟩⟩
      · cases stepped
  | unlock p b =>
      simp only at stepped
      split at stepped
      · next mine =>
        cases stepped
        exact ⟨ok.running, queueOk.unlock mine.2 mine.1,
          ⟨drive.legal, drive.idle, drive.active, drive.reading⟩⟩
      · cases stepped
  | change p b buf =>
      simp only at stepped
      split at stepped
      · next mine =>
        cases stepped
        exact ⟨ok.running, queueOk.change mine.2 mine.1 buf,
          drive.change (queueOk.not_mem mine.2 mine.1).1 buf⟩
      · cases stepped
  | iderw p b =>
      simp only at stepped
      split at stepped
      · next outside =>
        cases stepped
        exact ok_iderw ok outside proper
      · cases stepped
  | ideintr =>
      cases stepped
      exact ok_ideintr ok
  | perform error =>
      cases stepped
      rw [show error = false from proper]
      obtain ⟨bufs, holder, queue, procs, halted, -⟩ := idewait_frame s
      refine ⟨halted.trans ok.running, ?_, drive.idewait⟩
      change QueueOk (idewait s).bufs (idewait s).holder (idewait s).queue (idewait s).procs
      rw [bufs, holder, queue, procs]
      exact queueOk
  | wake p =>
      simp only at stepped
      split at stepped
      · next b asleep inside =>
        cases stepped
        exact ⟨ok.running, queueOk.setAsleep inside false (by rintro ⟨⟩),
          ⟨drive.legal, drive.idle, drive.active, drive.reading⟩⟩
      · cases stepped
  | recheck p =>
      simp only at stepped
      split at stepped
      · next b inside =>
        cases stepped
        refine ⟨ok.running, ?_, ⟨drive.legal, drive.idle, drive.active, drive.reading⟩⟩
        change QueueOk s.bufs s.holder s.queue (Function.update s.procs p _)
        split
        · next done => exact queueOk.leave inside done
        · next todo => exact queueOk.setAsleep inside true fun _ => todo
      · cases stepped

/-- Two buffers and two processes. -/
def twoBuffers : State Bool Bool Nat where
  bufs := fun b => ⟨1, if b then 7 else 5, false, false, 0⟩
  holder := fun _ => none
  queue := []
  procs := fun _ => none
  command := none
  latch := 0
  failed := false
  disk := fun sector => sector.2
  havedisk1 := true
  halted := none
  history := []

end Invariant

end Xv6.Ide
