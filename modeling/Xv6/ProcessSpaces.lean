import Xv6.LabelledRuns
import Xv6.SpaceChanges

/-!
# The address spaces of all processes

The calls that change address spaces are steps of one system: the process table,
the physical memory, and the frames that other parts of the kernel have taken
with `kalloc`.  A process may be scheduled, wake up, store to its memory and
change its kernel stack at any time between two calls.
-/

namespace Xv6.Vm

open ByteFields StateTriples

/-! ## The calls -/

/-- `exec`; `eip` and `esp` of the trap frame are on the kernel stack. -/
def execCall (boot : Boot) (cur : Fin 64) (path : List UInt8) (file : Option (List UInt8))
    (argv : List (List UInt8)) (m : Machine) : Except ExecStop (Int × Machine) :=
  let proc := m.procs cur
  let stack := m.kernel.mem proc.kstack
  match exec boot path file argv
    ⟨proc.pgdir, proc.sz, getWord stack 4076, getWord stack 4088, []⟩ m.kernel with
  | .error stop => .error stop
  | .ok ((result, new), kernel) =>
      let page := setWord (setWord (kernel.mem proc.kstack) 4076 new.eip) 4088 new.esp
      .ok (result, { m with
        kernel := { kernel with mem := Function.update kernel.mem proc.kstack page }
        procs := Function.update m.procs cur { proc with pgdir := new.pgdir, sz := new.sz } })

/-- `growproc` -/
def growprocCall (boot : Boot) (cur : Fin 64) (n : BitVec 32) : MachineM Int := do
  let proc := (← get).procs cur
  let ended ← onKernel (growproc boot proc.pgdir proc.sz n.toInt)
  setProc cur fun proc => { proc with sz := ended.2 }
  return ended.1

/-- `exit`, when the files are closed: the children go to `initproc`. -/
def exit (initproc cur : Fin 64) : MachineM Unit :=
  modify fun m => { m with procs := fun q =>
    let p := m.procs q
    let p := if p.parent = some cur then { p with parent := some initproc } else p
    if q = cur then { p with state := .zombie } else p }

/-- One scan of `wait`: the pid of a child that has exited, -1 when there is no
child, and nothing when the process goes to sleep. -/
def wait (boot : Boot) (cur : Fin 64) : MachineM (Option Int) := do
  let m ← get
  match (List.finRange 64).find? fun p =>
    decide ((m.procs p).parent = some cur ∧ (m.procs p).state = .zombie) with
  | some p =>
      onKernel (kfree boot (m.procs p).kstack)
      setProc p fun proc => { proc with kstack := 0 }
      onKernel (freevm boot (m.procs p).pgdir)
      setProc p fun proc => { proc with pid := 0, parent := none, state := .unused }
      return some (m.procs p).pid
  | none =>
      if (List.finRange 64).any fun p => decide ((m.procs p).parent = some cur) then
        setProc cur fun proc => { proc with state := .sleeping }
        return none
      else return some (-1)

/-! ## The system -/

/-- The processes, and the frames that pipes and drivers hold. -/
structure System where
  machine : Machine
  held : List Frame

/-- What happens next. -/
inductive Event where
  | fork (cur : Fin 64)
  | exec (cur : Fin 64) (path : List UInt8) (file : Option (List UInt8))
      (argv : List (List UInt8))
  | growproc (cur : Fin 64) (n : BitVec 32)
  | exit (cur : Fin 64)
  | wait (cur : Fin 64)
  /-- the scheduler, `sleep` and `wakeup` -/
  | reschedule (p : Fin 64) (state : ProcState)
  /-- the process stores a byte -/
  | store (cur : Fin 64) (va : Nat) (byte : UInt8)
  /-- the kernel stack of the process changes -/
  | kernelStack (p : Fin 64) (page : Page)
  | kalloc
  | kfree (f : Frame)
  /-- the holder of a frame stores to it -/
  | fill (f : Frame) (page : Page)

/-- A process that the scheduler knows. -/
def Schedulable (state : ProcState) : Prop :=
  state = .runnable ∨ state = .running ∨ state = .sleeping

instance (state : ProcState) : Decidable (Schedulable state) :=
  inferInstanceAs (Decidable (_ ∨ _))

/-- The parameters of the kernel: where it is linked, the addresses of `trapret` and
`forkret`, and the first process. -/
structure Setup where
  boot : Boot
  trapret : Nat
  forkret : Nat
  initproc : Fin 64

/-- The event can happen. -/
def Enabled (setup : Setup) (s : System) : Event → Prop
  | .fork cur => (s.machine.procs cur).state = .running
  | .exec cur _ _ _ => (s.machine.procs cur).state = .running
  | .growproc cur _ => (s.machine.procs cur).state = .running
  | .exit cur => (s.machine.procs cur).state = .running ∧ cur ≠ setup.initproc
  | .wait cur => (s.machine.procs cur).state = .running
  | .reschedule p state => Schedulable (s.machine.procs p).state ∧ Schedulable state
  | .store cur va _ => (s.machine.procs cur).state = .running ∧ va < kernbase ∧
      PteUserW (pte s.machine.kernel.mem (s.machine.procs cur).pgdir (va / 4096))
  | .kernelStack p _ => (s.machine.procs p).state ≠ .unused
  | .kalloc => True
  | .kfree f => f ∈ s.held
  | .fill f _ => f ∈ s.held

instance (setup : Setup) (s : System) (event : Event) : Decidable (Enabled setup s event) :=
  match event with
  | .fork _ | .exec _ _ _ _ | .growproc _ _ | .wait _ => inferInstanceAs (Decidable (_ = _))
  | .exit _ | .reschedule _ _ | .store _ _ _ => inferInstanceAs (Decidable (_ ∧ _))
  | .kernelStack _ _ => inferInstanceAs (Decidable (_ ≠ _))
  | .kalloc => inferInstanceAs (Decidable True)
  | .kfree _ | .fill _ _ => inferInstanceAs (Decidable (_ ∈ _))

/-- A call on the process table and the memory. -/
def onMachine {Result : Type} (call : MachineM Result) (s : System) :
    Except ExecStop System :=
  match call s.machine with
  | .ok (_, m) => .ok { s with machine := m }
  | .error stop => .error (.vm stop)

/-- The memory with other contents. -/
def System.setMem (s : System) (mem : Memory) : System :=
  { s with machine := { s.machine with kernel := { s.machine.kernel with mem := mem } } }

/-- What the event does, or where a call stops. -/
def perform (setup : Setup) (s : System) : Event → Except ExecStop System
  | .fork cur => onMachine (fork setup.boot setup.trapret setup.forkret cur) s
  | .exec cur path file argv =>
      match execCall setup.boot cur path file argv s.machine with
      | .ok (_, m) => .ok { s with machine := m }
      | .error stop => .error stop
  | .growproc cur n => onMachine (growprocCall setup.boot cur n) s
  | .exit cur => onMachine (exit setup.initproc cur) s
  | .wait cur => onMachine (wait setup.boot cur) s
  | .reschedule p state => onMachine (setProc p fun proc => { proc with state := state }) s
  | .store cur va byte =>
      let f := pteAddr (pte s.machine.kernel.mem (s.machine.procs cur).pgdir (va / 4096))
      .ok (s.setMem (memmove s.machine.kernel.mem f (va % 4096) [byte]))
  | .kernelStack p page =>
      .ok (s.setMem (Function.update s.machine.kernel.mem (s.machine.procs p).kstack page))
  | .kalloc =>
      match kalloc s.machine.kernel with
      | .ok (none, _) => .ok s
      | .ok (some f, kernel) => .ok ⟨{ s.machine with kernel := kernel }, f :: s.held⟩
      | .error stop => .error (.vm stop)
  | .kfree f =>
      match kfree setup.boot f s.machine.kernel with
      | .ok (_, kernel) => .ok ⟨{ s.machine with kernel := kernel }, s.held.erase f⟩
      | .error stop => .error (.vm stop)
  | .fill f page => .ok (s.setMem (Function.update s.machine.kernel.mem f page))

/-- One step of the system. -/
def step (setup : Setup) (s : System) (event : Event) : Option System :=
  if Enabled setup s event then (perform setup s event).toOption else none

/-- The guard of a run: no process gives back all of its memory, and no string of
`exec` is as long as the device window. -/
def Careful (s : System) : Event → Prop
  | .growproc cur n => (s.machine.procs cur).sz = 0 ∨ n.toInt ≠ -(s.machine.procs cur).sz
  | .exec _ _ _ argv => ∀ arg ∈ argv, arg.length < 33554432
  | _ => True

/-! ## Who has which frame -/

/-- The frames of a process. -/
def frames (mem : Memory) (p : ProcSpace) : Multiset Frame :=
  if p.state = .unused then 0 else {p.kstack} + owned mem p.pgdir

/-- The frames of all processes. -/
def inUse (m : Machine) : Multiset Frame :=
  ∑ p, frames m.kernel.mem (m.procs p)

/-- Every frame has one use: it is free, it belongs to one process, somebody else
holds it, or it is not used any more. -/
structure FramesOk (setup : Setup) (all kept : Multiset Frame) (s : System) : Prop where
  balance : (s.machine.kernel.freelist : Multiset Frame) + inUse s.machine +
    (s.held : Multiset Frame) + kept = all
  nodup : all.Nodup
  managed : ∀ f ∈ all, Managed setup.boot f
  spaces : ∀ p, (s.machine.procs p).state ≠ .unused →
    Space setup.boot s.machine.kernel.mem (s.machine.procs p).pgdir (s.machine.procs p).sz

/-! ## What a step moves -/

abbrev System.mem (s : System) : Memory := s.machine.kernel.mem

abbrev System.free (s : System) : List Frame := s.machine.kernel.freelist

abbrev System.proc (s : System) (p : Fin 64) : ProcSpace := s.machine.procs p

/-- The memory of an entry of the process table is as before. -/
structure SameMemory (p p' : ProcSpace) : Prop where
  kstack : p'.kstack = p.kstack
  pgdir : p'.pgdir = p.pgdir
  sz : p'.sz = p.sz
  used : p'.state = .unused ↔ p.state = .unused

theorem SameMemory.refl (p : ProcSpace) : SameMemory p p :=
  ⟨rfl, rfl, rfl, Iff.rfl⟩

/-- The process that changes its own memory. -/
def Event.writer : Event → Option (Fin 64)
  | .exec cur _ _ _ | .growproc cur _ | .store cur _ _ => some cur
  | _ => none

/-- The new process `p` is a copy of the one that has called `fork`. -/
structure Born (s s' : System) (p cur : Fin 64) : Prop where
  parent : (s'.proc p).parent = some cur
  sz : (s'.proc p).sz = (s.proc cur).sz
  bytes : ∀ va < kernbase, userByte s'.mem (s'.proc p).pgdir va =
    userByte s.mem (s.proc cur).pgdir va

/-- The frames go to and fro between the free list, the process `p` and the other
holders, but for those that are lost. -/
structure Transfer (setup : Setup) (s s' : System) (p : Fin 64) (lost : Multiset Frame) :
    Prop where
  others : ∀ q, q ≠ p → SameMemory (s.proc q) (s'.proc q)
  mem : ∀ f, f ∉ s.free → f ∉ frames s.mem (s.proc p) → f ∉ s.held → s'.mem f = s.mem f
  total : (s'.free : Multiset Frame) + frames s'.mem (s'.proc p) + (s'.held : Multiset Frame) +
    lost = (s.free : Multiset Frame) + frames s.mem (s.proc p) + (s.held : Multiset Frame)
  space : (s'.proc p).state ≠ .unused →
    Space setup.boot s'.mem (s'.proc p).pgdir (s'.proc p).sz

/-- The frames of the process `p` move; its memory is as before unless it writes, and
if it is new it is a copy. -/
structure Moves (setup : Setup) (s : System) (event : Event) (s' : System) (p : Fin 64)
    (lost : Multiset Frame) : Prop extends Transfer setup s s' p lost where
  self : event.writer ≠ some p → (s.proc p).state ≠ .unused →
    (s'.proc p).state ≠ .unused → SameMemory (s.proc p) (s'.proc p) ∧
      ∀ f ∈ owned s.mem (s.proc p).pgdir, s'.mem f = s.mem f
  born : (s.proc p).state = .unused → (s'.proc p).state ≠ .unused →
    ∃ cur, event = .fork cur ∧ (s.proc cur).state ≠ .unused ∧ Born s s' p cur

section Balance

variable {setup : Setup} {all kept lost : Multiset Frame} {s s' : System} {p q : Fin 64}
  {event : Event}

theorem frames_of_used {mem : Memory} {p : ProcSpace} (used : p.state ≠ .unused) :
    frames mem p = {p.kstack} + owned mem p.pgdir :=
  if_neg used

theorem frames_congr {mem mem' : Memory} {p p' : ProcSpace} (same : SameMemory p p')
    (contents : ∀ f ∈ frames mem p, mem' f = mem f) : frames mem' p' = frames mem p := by
  by_cases unused : p.state = .unused
  · unfold frames
    rw [if_pos unused, if_pos (same.used.mpr unused)]
  · have used : p'.state ≠ .unused := fun h => unused (same.used.mp h)
    rw [frames_of_used unused] at contents ⊢
    rw [frames_of_used used, same.kstack, same.pgdir]
    congr 1
    apply (space_congr _).2.1
    intro f isOwned
    exact contents f (Multiset.mem_add.mpr (.inr isOwned))

/-- The frames of the processes but one. -/
def elsewhere (m : Machine) (p : Fin 64) : Multiset Frame :=
  ∑ q ∈ Finset.univ.erase p, frames m.kernel.mem (m.procs q)

theorem inUse_split (m : Machine) (p : Fin 64) :
    inUse m = frames m.kernel.mem (m.procs p) + elsewhere m p :=
  (Finset.add_sum_erase _ _ (Finset.mem_univ p)).symm

theorem mem_elsewhere {m : Machine} (other : q ≠ p) {f : Frame}
    (isHere : f ∈ frames m.kernel.mem (m.procs q)) : f ∈ elsewhere m p :=
  Multiset.mem_sum.mpr ⟨q, Finset.mem_erase.mpr ⟨other, Finset.mem_univ q⟩, isHere⟩

/-- A frame of a process is not free, and nobody else has it. -/
theorem FramesOk.apart (ok : FramesOk setup all kept s) {f : Frame}
    (isHere : f ∈ frames s.mem (s.proc q)) :
    f ∉ s.free ∧ (∀ p, q ≠ p → f ∉ frames s.mem (s.proc p)) ∧ f ∉ s.held ∧ f ∉ kept := by
  have sum : frames s.mem (s.proc q) + ((s.free : Multiset Frame) + elsewhere s.machine q +
      (s.held : Multiset Frame) + kept) = all := by
    rw [← ok.balance, inUse_split s.machine q]
    ac_rfl
  have nodup := ok.nodup
  rw [← sum] at nodup
  have away := Multiset.disjoint_left.mp (Multiset.nodup_add.mp nodup).2.2 isHere
  simp only [Multiset.mem_add, Multiset.mem_coe, not_or] at away
  refine ⟨away.1.1.1, ?_, away.1.2, away.2⟩
  intro p other isThere
  exact away.1.1.2 (mem_elsewhere other.symm isThere)

/-- The address space of a process by itself. -/
theorem FramesOk.wf (ok : FramesOk setup all kept s) (used : (s.proc p).state ≠ .unused) :
    Wf setup.boot s.machine.kernel (s.proc p).pgdir
      ({(s.proc p).kstack} + elsewhere s.machine p + (s.held : Multiset Frame) + kept) := by
  have sum : total s.machine.kernel (s.proc p).pgdir +
      ({(s.proc p).kstack} + elsewhere s.machine p + (s.held : Multiset Frame) + kept) =
      all := by
    rw [← ok.balance, inUse_split s.machine p, frames_of_used used]
    unfold total
    ac_rfl
  exact ⟨sum ▸ ok.nodup, fun f isHere => ok.managed f (sum ▸ isHere)⟩

theorem FramesOk.freeWf (ok : FramesOk setup all kept s) :
    FreeWf setup.boot s.machine.kernel
      (inUse s.machine + (s.held : Multiset Frame) + kept) := by
  have sum : (s.free : Multiset Frame) +
      (inUse s.machine + (s.held : Multiset Frame) + kept) = all := by
    rw [← ok.balance]
    ac_rfl
  exact ⟨sum ▸ ok.nodup, fun f isHere => ok.managed f (sum ▸ isHere)⟩

/-- The other processes keep what they have in their frames. -/
theorem Transfer.keeps (moves : Transfer setup s s' p lost) (ok : FramesOk setup all kept s)
    (other : q ≠ p) : ∀ f ∈ frames s.mem (s.proc q), s'.mem f = s.mem f := by
  intro f isHere
  obtain ⟨notFree, notThere, notHeld, -⟩ := ok.apart isHere
  exact moves.mem f notFree (notThere p other) notHeld

theorem Transfer.framesOk (moves : Transfer setup s s' p lost)
    (ok : FramesOk setup all kept s) : FramesOk setup all (kept + lost) s' := by
  have rest : elsewhere s'.machine p = elsewhere s.machine p := by
    apply Finset.sum_congr rfl
    intro q isOther
    have other := Finset.ne_of_mem_erase isOther
    exact frames_congr (moves.others q other) (moves.keeps ok other)
  constructor
  · rw [← ok.balance, inUse_split s'.machine p, inUse_split s.machine p, rest]
    calc (s'.free : Multiset Frame) + (frames s'.mem (s'.proc p) + elsewhere s.machine p) +
          (s'.held : Multiset Frame) + (kept + lost)
        = (s'.free : Multiset Frame) + frames s'.mem (s'.proc p) + (s'.held : Multiset Frame) +
          lost + (elsewhere s.machine p + kept) := by ac_rfl
      _ = _ := by
          rw [moves.total]
          ac_rfl
  · exact ok.nodup
  · exact ok.managed
  · intro q used
    by_cases isSelf : q = p
    · subst isSelf
      exact moves.space used
    · have same := moves.others q isSelf
      have before : (s.proc q).state ≠ .unused := fun h => used (same.used.mpr h)
      rw [same.pgdir, same.sz]
      apply (ok.spaces q before).congr
      intro f isOwned
      apply moves.keeps ok isSelf
      rw [frames_of_used before]
      exact Multiset.mem_add.mpr (.inr isOwned)

/-- A process that does not write keeps its memory. -/
theorem Moves.userByte (moves : Moves setup s event s' p lost)
    (ok : FramesOk setup all kept s) (notWriter : event.writer ≠ some q)
    (before : (s.proc q).state ≠ .unused) (after : (s'.proc q).state ≠ .unused) :
    (s'.proc q).pgdir = (s.proc q).pgdir ∧ (s'.proc q).sz = (s.proc q).sz ∧
      ∀ va < kernbase, userByte s'.mem (s'.proc q).pgdir va =
        userByte s.mem (s.proc q).pgdir va := by
  have kept : SameMemory (s.proc q) (s'.proc q) ∧
      ∀ f ∈ owned s.mem (s.proc q).pgdir, s'.mem f = s.mem f := by
    by_cases isSelf : q = p
    · subst isSelf
      exact moves.self notWriter before after
    · refine ⟨moves.others q isSelf, ?_⟩
      intro f isOwned
      apply moves.toTransfer.keeps ok isSelf
      rw [frames_of_used before]
      exact Multiset.mem_add.mpr (.inr isOwned)
  refine ⟨kept.1.pgdir, kept.1.sz, ?_⟩
  rw [kept.1.pgdir]
  exact (space_congr kept.2).2.2

end Balance

/-! ## The steps -/

section Steps

variable {setup : Setup} {all kept : Multiset Frame} {s : System} {cur : Fin 64}

/-- Only the process table changes, and no memory of an entry. -/
theorem moves_of_procs (event : Event) (procs : Fin 64 → ProcSpace) (nextpid : Nat) (p : Fin 64)
    (ok : FramesOk setup all kept s) (same : ∀ q, SameMemory (s.proc q) (procs q)) :
    Moves setup s event ⟨⟨s.machine.kernel, procs, nextpid⟩, s.held⟩ p 0 := by
  refine ⟨⟨?_, ?_, ?_, ?_⟩, ?_, ?_⟩
  · intro q _
    exact same q
  · intro f _ _ _
    rfl
  · rw [add_zero, show frames s.mem (procs p) = _ from frames_congr (same p) fun _ _ => rfl]
  · intro used
    have before : (s.proc p).state ≠ .unused := fun h => used ((same p).used.mpr h)
    change Space _ _ (procs p).pgdir (procs p).sz
    rw [(same p).pgdir, (same p).sz]
    exact ok.spaces p before
  · intro _ _ _
    exact ⟨same p, fun _ _ => rfl⟩
  · intro unused used
    exact absurd ((same p).used.mpr unused) used

/-- No frame of an address space changes, but the other holders may take frames and
give them back. -/
theorem moves_of_holders (event : Event) {mem : Memory} {free held : List Frame} (p : Fin 64)
    (ok : FramesOk setup all kept s)
    (same : ∀ f, f ∉ s.held → ((s.proc p).state ≠ .unused → f ≠ (s.proc p).kstack) →
      mem f = s.mem f)
    (balance : (free : Multiset Frame) + (held : Multiset Frame) =
      (s.free : Multiset Frame) + (s.held : Multiset Frame)) :
    Moves setup s event ⟨⟨⟨mem, free⟩, s.machine.procs, s.machine.nextpid⟩, held⟩ p 0 := by
  have contents (used : (s.proc p).state ≠ .unused) : ∀ f ∈ owned s.mem (s.proc p).pgdir,
      mem f = s.mem f := by
    intro f isOwned
    have isHere : f ∈ frames s.mem (s.proc p) := by
      rw [frames_of_used used]
      exact Multiset.mem_add.mpr (.inr isOwned)
    apply same f (ok.apart isHere).2.2.1
    rintro - rfl
    apply (ok.wf used).extra_notTotal _ (mem_total.mpr (.inl isOwned))
    simp
  have kept : frames mem (s.proc p) = frames s.mem (s.proc p) := by
    by_cases unused : (s.proc p).state = .unused
    · unfold frames
      rw [if_pos unused, if_pos unused]
    · rw [frames_of_used unused, frames_of_used unused, (space_congr (contents unused)).2.1]
  refine ⟨⟨?_, ?_, ?_, ?_⟩, ?_, ?_⟩
  · intro q _
    exact SameMemory.refl _
  · intro f _ notThere notHeld
    apply same f notHeld
    rintro used rfl
    apply notThere
    rw [frames_of_used used]
    exact Multiset.mem_add.mpr (.inl (Multiset.mem_singleton_self _))
  · change (free : Multiset Frame) + frames mem (s.proc p) + (held : Multiset Frame) + 0 = _
    rw [kept, add_zero, add_right_comm, balance, add_right_comm]
  · intro used
    exact (ok.spaces p used).congr (contents used)
  · intro _ used _
    exact ⟨SameMemory.refl _, contents used⟩
  · intro unused used
    exact absurd unused used

/-- Frames move between the free list and the address space of a process, whose
kernel stack may change too. -/
theorem moves_of_space (event : Event) {kernel : Kernel} {d : Frame} {sz : Nat}
    {procs : Fin 64 → ProcSpace} (page : Page) (ok : FramesOk setup all kept s)
    (used : (s.proc cur).state ≠ .unused) (writes : event.writer = some cur)
    (same : ∀ q, q ≠ cur → procs q = s.proc q)
    (entry : procs cur = { s.proc cur with pgdir := d, sz := sz })
    (space : Space setup.boot kernel.mem d sz)
    (totals : total kernel d = total s.machine.kernel (s.proc cur).pgdir)
    (others : ∀ f ∉ total s.machine.kernel (s.proc cur).pgdir, kernel.mem f = s.mem f) :
    Moves setup s event
      ⟨⟨⟨Function.update kernel.mem (s.proc cur).kstack page, kernel.freelist⟩, procs,
        s.machine.nextpid⟩, s.held⟩ cur 0 := by
  have notTotal : (s.proc cur).kstack ∉ total s.machine.kernel (s.proc cur).pgdir := by
    apply (ok.wf used).extra_notTotal
    simp
  have contents : ∀ f ∈ owned kernel.mem d,
      Function.update kernel.mem (s.proc cur).kstack page f = kernel.mem f := by
    intro f isOwned
    apply Function.update_of_ne
    rintro rfl
    exact notTotal (totals ▸ mem_total.mpr (.inl isOwned))
  refine ⟨⟨?_, ?_, ?_, ?_⟩, ?_, ?_⟩
  · intro q other
    change SameMemory _ (procs q)
    rw [same q other]
    exact SameMemory.refl _
  · intro f notFree notThere _
    rw [frames_of_used used, Multiset.mem_add, not_or, Multiset.mem_singleton] at notThere
    refine (Function.update_of_ne notThere.1 _ _).trans (others f ?_)
    rw [mem_total, not_or]
    exact ⟨notThere.2, notFree⟩
  · change (kernel.freelist : Multiset Frame) + frames _ (procs cur) +
      (s.held : Multiset Frame) + 0 = _
    have usedAfter : (procs cur).state ≠ .unused := entry ▸ used
    rw [frames_of_used usedAfter, frames_of_used used, entry, add_zero,
      (space_congr contents).2.1]
    unfold total at totals
    congr 1
    calc (kernel.freelist : Multiset Frame) + ({(s.proc cur).kstack} + owned kernel.mem d)
        = owned kernel.mem d + (kernel.freelist : Multiset Frame) + {(s.proc cur).kstack} := by
          ac_rfl
      _ = _ := by
          rw [totals]
          ac_rfl
  · intro _
    change Space _ _ (procs cur).pgdir (procs cur).sz
    rw [entry]
    exact space.congr contents
  · intro notWriter
    exact absurd writes notWriter
  · intro unused
    exact absurd unused used

/-- An entry that stays unused; frames of the free list may be lost. -/
theorem moves_of_unused (event : Event) {kernel : Kernel} {procs : Fin 64 → ProcSpace}
    {p : Fin 64} (nextpid : Nat) {lost : Multiset Frame}
    (same : ∀ q, q ≠ p → procs q = s.proc q) (before : (s.proc p).state = .unused)
    (after : (procs p).state = .unused)
    (free : (kernel.freelist : Multiset Frame) + lost = (s.free : Multiset Frame))
    (others : ∀ f ∉ s.free, kernel.mem f = s.mem f) :
    Moves setup s event ⟨⟨kernel, procs, nextpid⟩, s.held⟩ p lost := by
  refine ⟨⟨?_, ?_, ?_, ?_⟩, ?_, ?_⟩
  · intro q other
    change SameMemory _ (procs q)
    rw [same q other]
    exact SameMemory.refl _
  · intro f notFree _ _
    exact others f notFree
  · change (kernel.freelist : Multiset Frame) + frames _ (procs p) + _ + _ = _
    unfold frames
    rw [if_pos before, if_pos after, ← free]
    ac_rfl
  · intro used
    exact absurd after used
  · intro _ used
    exact absurd before used
  · intro _ used
    exact absurd after used

end Steps

/-! ## `fork` -/

section Fork

variable {boot : Boot} {m : Machine} {np cur : Fin 64} {trapret forkret : Nat}
  {k : Frame} {rest : List Frame}

/-- The table and the memory after `allocproc`. -/
def allocated (m : Machine) (np : Fin 64) (k : Frame) (rest : List Frame)
    (trapret forkret : Nat) : Machine where
  kernel := ⟨Function.update m.kernel.mem k (newStack trapret forkret (m.kernel.mem k)), rest⟩
  procs := Function.update m.procs np
    { m.procs np with state := .embryo, pid := m.nextpid, kstack := k }
  nextpid := m.nextpid + 1

theorem allocproc_allocated (found : unusedProc m = some np)
    (frames : m.kernel.freelist = k :: rest) :
    allocproc trapret forkret m = .ok (some np, allocated m np k rest trapret forkret) := by
  unfold unusedProc at found
  simp only [allocproc, bind_apply, get_apply, found, setProc, modify_apply,
    onKernel, kalloc_cons frames, storePage, pure_apply, allocated, Function.update_self,
    Function.update_idem]

theorem fork_full (full : unusedProc m = none) :
    fork boot trapret forkret cur m = .ok (-1, m) :=
  bind_of_ok (allocproc_full full)

theorem fork_noFrame (found : unusedProc m = some np) (empty : m.kernel.freelist = []) :
    ∃ proc, proc.state = .unused ∧ fork boot trapret forkret cur m =
      .ok (-1, ⟨m.kernel, Function.update m.procs np proc, m.nextpid + 1⟩) := by
  unfold unusedProc at found
  refine ⟨?_, ?_, ?_⟩
  rotate_left
  rotate_left
  · simp only [fork, allocproc, bind_apply, get_apply, found, setProc, modify_apply,
      onKernel, kalloc_nil empty, pure_apply, Function.update_self, Function.update_idem]
    rfl
  · rfl

/-- A failing `copyuvm` gives up the child's kernel stack. -/
theorem fork_refused {s' : Kernel} (other : cur ≠ np) (found : unusedProc m = some np)
    (frames : m.kernel.freelist = k :: rest) (managed : Managed boot k)
    (copy : copyuvm boot (m.procs cur).pgdir (m.procs cur).sz
      (allocated m np k rest trapret forkret).kernel = .ok (none, s')) :
    ∃ proc, proc.state = .unused ∧ fork boot trapret forkret cur m =
      .ok (-1, ⟨⟨Function.update s'.mem k (freedPage s'.freelist.head?), k :: s'.freelist⟩,
        Function.update m.procs np proc, m.nextpid + 1⟩) := by
  have free := kfree_apply managed s'
  have parent : (allocated m np k rest trapret forkret).procs cur = m.procs cur :=
    Function.update_of_ne other _ _
  refine ⟨?_, ?_, ?_⟩
  rotate_left
  rotate_left
  · simp only [fork, bind_apply, allocproc_allocated found frames, get_apply, parent, onKernel,
      copy, setProc, modify_apply]
    simp only [allocated, Function.update_self, free, pure_apply, Function.update_idem]
    rfl
  · rfl

/-- The child has the copy, and the parent's trap frame on its stack. -/
theorem fork_copied {s' : Kernel} {d : Frame} (other : cur ≠ np)
    (found : unusedProc m = some np) (frames : m.kernel.freelist = k :: rest)
    (copy : copyuvm boot (m.procs cur).pgdir (m.procs cur).sz
      (allocated m np k rest trapret forkret).kernel = .ok (some d, s')) :
    fork boot trapret forkret cur m =
      .ok ((m.nextpid : Int), ⟨⟨Function.update s'.mem k
          (childStack (s'.mem k) (s'.mem (m.procs cur).kstack)), s'.freelist⟩,
        Function.update m.procs np ⟨.runnable, m.nextpid, k, d, (m.procs cur).sz, some cur⟩,
        m.nextpid + 1⟩) := by
  have parent : (allocated m np k rest trapret forkret).procs cur = m.procs cur :=
    Function.update_of_ne other _ _
  simp only [fork, bind_apply, allocproc_allocated found frames, get_apply, parent, onKernel,
    copy, setProc, modify_apply, storePage]
  simp only [allocated, Function.update_self, pure_apply, Function.update_idem]

/-- The call of `fork` that loses a frame. -/
def Splits (setup : Setup) (s : System) : Event → Prop
  | .fork cur => SplitsPair setup.boot (s.free.length - 1) (s.proc cur).sz
  | _ => False

/-- What an event does: it ends, and it moves frames. -/
def PerformsWell (setup : Setup) (s : System) (event : Event) : Prop :=
  ∃ s' p lost, perform setup s event = .ok s' ∧ Moves setup s event s' p lost ∧
    (lost = 0 ∨ lost.card = 1 ∧ Splits setup s event)

theorem onMachine_ok {Result : Type} {call : MachineM Result} {s : System} {result : Result}
    {m' : Machine} (run : call s.machine = .ok (result, m')) :
    onMachine call s = .ok ⟨m', s.held⟩ := by
  unfold onMachine
  rw [run]

section ForkMoves

variable {setup : Setup} {all kept : Multiset Frame} {s : System}

/-- The frames of a new process are those that were free. -/
theorem transfer_of_child {kernel : Kernel} {proc : ProcSpace} (page page' : Page)
    (nextpid : Nat) (ok : FramesOk setup all kept s) (unused : (s.proc np).state = .unused)
    (frames : s.free = proc.kstack :: rest) (used : proc.state ≠ .unused)
    (space : Space setup.boot kernel.mem proc.pgdir proc.sz)
    (totals : total kernel proc.pgdir = (rest : Multiset Frame))
    (others : ∀ f ∉ rest, kernel.mem f = Function.update s.mem proc.kstack page f) :
    Transfer setup s ⟨⟨⟨Function.update kernel.mem proc.kstack page', kernel.freelist⟩,
        Function.update s.machine.procs np proc, nextpid⟩, s.held⟩ np 0 ∧
      ∀ f ∈ owned kernel.mem proc.pgdir,
        Function.update kernel.mem proc.kstack page' f = kernel.mem f := by
  have notRest : proc.kstack ∉ (rest : Multiset Frame) := by
    have nodup : (s.free : Multiset Frame).Nodup := (Multiset.nodup_add.mp ok.freeWf.nodup).1
    rw [frames] at nodup
    exact (List.nodup_cons.mp (Multiset.coe_nodup.mp nodup)).1
  have contents : ∀ f ∈ owned kernel.mem proc.pgdir,
      Function.update kernel.mem proc.kstack page' f = kernel.mem f := by
    intro f isOwned
    apply Function.update_of_ne
    rintro rfl
    exact notRest (totals ▸ mem_total.mpr (.inl isOwned))
  have entry : Function.update s.machine.procs np proc np = proc := Function.update_self _ _ _
  refine ⟨⟨?_, ?_, ?_, ?_⟩, contents⟩
  · intro q other
    change SameMemory _ (Function.update s.machine.procs np _ q)
    rw [Function.update_of_ne other]
    exact SameMemory.refl _
  · intro f notFree _ _
    rw [frames, List.mem_cons, not_or] at notFree
    refine (Function.update_of_ne notFree.1 _ _).trans ((others f notFree.2).trans ?_)
    exact Function.update_of_ne notFree.1 _ _
  · change (kernel.freelist : Multiset Frame) +
      Vm.frames _ (Function.update s.machine.procs np _ np)
      + (s.held : Multiset Frame) + 0 = (s.free : Multiset Frame) + Vm.frames _ (s.proc np) + _
    rw [entry, frames_of_used used, (space_congr contents).2.1]
    unfold Vm.frames
    unfold total at totals
    rw [if_pos unused, frames, ← Multiset.cons_coe, ← totals, ← Multiset.singleton_add]
    simp only [add_zero]
    ac_rfl
  · intro _
    change Space _ _ (Function.update s.machine.procs np _ np).pgdir
      (Function.update s.machine.procs np _ np).sz
    rw [entry]
    exact space.congr contents

/-- The child of `fork`. -/
theorem moves_of_child {kernel : Kernel} {d : Frame} (page page' : Page)
    (ok : FramesOk setup all kept s) (used : (s.proc cur).state ≠ .unused)
    (unused : (s.proc np).state = .unused) (frames : s.free = k :: rest)
    (space : Space setup.boot kernel.mem d (s.proc cur).sz)
    (totals : total kernel d = (rest : Multiset Frame))
    (others : ∀ f ∉ rest, kernel.mem f = Function.update s.mem k page f)
    (bytes : ∀ va < kernbase, userByte kernel.mem d va =
      userByte (Function.update s.mem k page) (s.proc cur).pgdir va) :
    Moves setup s (.fork cur) ⟨⟨⟨Function.update kernel.mem k page', kernel.freelist⟩,
      Function.update s.machine.procs np
        ⟨.runnable, s.machine.nextpid, k, d, (s.proc cur).sz, some cur⟩,
      s.machine.nextpid + 1⟩, s.held⟩ np 0 := by
  generalize childEq : (⟨.runnable, s.machine.nextpid, k, d, (s.proc cur).sz, some cur⟩ :
    ProcSpace) = child
  obtain ⟨live, stack, directory, size, parentEq⟩ : child.state = .runnable ∧ child.kstack = k ∧
      child.pgdir = d ∧ child.sz = (s.proc cur).sz ∧ child.parent = some cur := by
    rw [← childEq]
    exact ⟨rfl, rfl, rfl, rfl, rfl⟩
  subst stack directory
  have alive : child.state ≠ .unused := by
    rw [live]
    decide
  obtain ⟨transfer, contents⟩ := transfer_of_child page page' (s.machine.nextpid + 1) ok unused
    frames alive (size ▸ space) totals others
  have entry : Function.update s.machine.procs np child np = child := Function.update_self _ _ _
  have parent : ∀ f ∈ owned s.mem (s.proc cur).pgdir,
      Function.update s.mem child.kstack page f = s.mem f := by
    intro f isOwned
    apply Function.update_of_ne
    rintro rfl
    have listed : child.kstack ∈ s.free := frames ▸ List.mem_cons_self
    exact (ok.wf used).free_notOwned listed isOwned
  refine ⟨transfer, ?_, ?_⟩
  · intro _ wasUsed
    exact absurd unused wasUsed
  · intro _ _
    refine ⟨cur, rfl, used, ?_⟩
    constructor
    · change (Function.update s.machine.procs np _ np).parent = _
      rw [entry, parentEq]
    · change (Function.update s.machine.procs np _ np).sz = _
      rw [entry, size]
    · intro va user
      change userByte _ (Function.update s.machine.procs np _ np).pgdir va = _
      rw [entry]
      exact ((space_congr contents).2.2 va user).trans
        ((bytes va user).trans ((space_congr parent).2.2 va user))

theorem fork_moves (mode : VideoMode setup.boot) (ok : FramesOk setup all kept s)
    (running : (s.proc cur).state = .running) : PerformsWell setup s (.fork cur) := by
  have used : (s.proc cur).state ≠ .unused := by
    rw [running]
    decide
  have ends {result : Int} {m' : Machine} (run : fork setup.boot setup.trapret setup.forkret
      cur s.machine = .ok (result, m')) :
      perform setup s (.fork cur) = .ok ⟨m', s.held⟩ := onMachine_ok run
  cases found : unusedProc s.machine with
  | none =>
      exact ⟨_, cur, 0, ends (fork_full found),
        moves_of_procs _ _ _ _ ok fun q => SameMemory.refl _, .inl rfl⟩
  | some np =>
      have unused := unusedProc_state found
      have other : cur ≠ np := by
        rintro rfl
        exact used unused
      have same (proc : ProcSpace) (q : Fin 64) (differs : q ≠ np) :
          Function.update s.machine.procs np proc q = s.proc q :=
        Function.update_of_ne differs _ _
      cases frames : s.free with
      | nil =>
          obtain ⟨proc, after, run⟩ := @fork_noFrame setup.boot s.machine np cur setup.trapret
            setup.forkret found frames
          refine ⟨_, np, 0, ends run, moves_of_unused _ _ (same proc) unused ?_ ?_ ?_, .inl rfl⟩
          · rw [Function.update_self]
            exact after
          · rw [add_zero]
          · intro f _
            rfl
      | cons k rest =>
          generalize pageEq : newStack setup.trapret setup.forkret (s.mem k) = page
          have isFree : k ∈ s.free := frames ▸ List.mem_cons_self
          have managed : Managed setup.boot k := (ok.wf used).managed_free isFree
          have parent : ∀ f ∈ owned s.mem (s.proc cur).pgdir,
              Function.update s.mem k page f = s.mem f := by
            intro f isOwned
            apply Function.update_of_ne
            rintro rfl
            exact (ok.wf used).free_notOwned isFree isOwned
          have apart : ∀ f ∈ owned (Function.update s.mem k page) (s.proc cur).pgdir,
              f ∉ rest := by
            intro f isOwned inRest
            rw [(space_congr parent).2.1] at isOwned
            have listed : f ∈ s.free := frames ▸ List.mem_cons_of_mem k inRest
            exact (ok.wf used).free_notOwned listed isOwned
          have copy := copyuvm_space mode (ok.freeWf.take frames page)
            ((ok.spaces cur used).congr parent) apart
          have kernel : (allocated s.machine np k rest setup.trapret setup.forkret).kernel =
              ⟨Function.update s.mem k page, rest⟩ := by
            rw [← pageEq]
            rfl
          rcases copy with ⟨d, s', run, space, totals, others, bytes⟩ |
            ⟨s', lost, run, free, others, few⟩
          · rw [← kernel] at run
            exact ⟨_, np, 0, ends (fork_copied other found frames run),
              moves_of_child page _ ok used unused frames space totals others bytes, .inl rfl⟩
          · rw [← kernel] at run
            obtain ⟨proc, after, run⟩ := fork_refused other found frames managed run
            refine ⟨_, np, lost, ends run, moves_of_unused _ _ (same proc) unused ?_ ?_ ?_, ?_⟩
            · rw [Function.update_self]
              exact after
            · rw [frames, ← Multiset.cons_coe, ← Multiset.cons_coe, Multiset.cons_add, free]
            · intro f notFree
              rw [frames, List.mem_cons, not_or] at notFree
              refine (Function.update_of_ne notFree.1 _ _).trans ((others f notFree.2).trans ?_)
              exact Function.update_of_ne notFree.1 _ _
            · unfold Splits
              rw [frames, List.length_cons, Nat.add_sub_cancel]
              exact few

end ForkMoves

end Fork

/-! ## The other calls -/

section Calls

variable {setup : Setup} {all kept : Multiset Frame} {s : System} {cur p : Fin 64}

/-- The entry is given up with all its frames. -/
theorem moves_of_reap (event : Event) {kernel : Kernel} {procs : Fin 64 → ProcSpace}
    (nextpid : Nat) (used : (s.proc p).state ≠ .unused)
    (same : ∀ q, q ≠ p → procs q = s.proc q) (after : (procs p).state = .unused)
    (free : (kernel.freelist : Multiset Frame) = (s.free : Multiset Frame) +
      frames s.mem (s.proc p))
    (others : ∀ f, f ∉ s.free → f ∉ frames s.mem (s.proc p) → kernel.mem f = s.mem f) :
    Moves setup s event ⟨⟨kernel, procs, nextpid⟩, s.held⟩ p 0 := by
  refine ⟨⟨?_, ?_, ?_, ?_⟩, ?_, ?_⟩
  · intro q other
    change SameMemory _ (procs q)
    rw [same q other]
    exact SameMemory.refl _
  · intro f notFree notHere _
    exact others f notFree notHere
  · change (kernel.freelist : Multiset Frame) + frames _ (procs p) + (s.held : Multiset Frame) +
      0 = _
    rw [show frames kernel.mem (procs p) = 0 from if_pos after, free]
    simp only [add_zero]
  · intro stillUsed
    exact absurd after stillUsed
  · intro _ _ stillUsed
    exact absurd after stillUsed
  · intro unused
    exact absurd unused used

theorem wait_moves (ok : FramesOk setup all kept s)
    (running : (s.proc cur).state = .running) : PerformsWell setup s (.wait cur) := by
  have awake : (s.proc cur).state ≠ .unused := by
    rw [running]
    decide
  cases found : (List.finRange 64).find? fun p =>
      decide ((s.machine.procs p).parent = some cur ∧ (s.machine.procs p).state = .zombie) with
  | none =>
      by_cases child : (List.finRange 64).any fun p =>
          decide ((s.machine.procs p).parent = some cur)
      · have run : wait setup.boot cur s.machine = .ok (none, { s.machine with
            procs := Function.update s.machine.procs cur
              { s.proc cur with state := .sleeping } }) := by
          simp only [wait, bind_apply, get_apply, found, if_apply, child, if_true, setProc,
            modify_apply, pure_apply]
        refine ⟨_, cur, 0, onMachine_ok run, moves_of_procs _ _ _ _ ok ?_, .inl rfl⟩
        intro q
        by_cases isSelf : q = cur
        · subst isSelf
          rw [Function.update_self]
          have asleep : ProcState.sleeping ≠ .unused := by decide
          exact ⟨rfl, rfl, rfl, iff_of_false asleep awake⟩
        · rw [Function.update_of_ne isSelf]
          exact SameMemory.refl _
      · have run : wait setup.boot cur s.machine = .ok (some (-1), s.machine) := by
          simp only [wait, bind_apply, get_apply, found, if_apply, child, pure_apply]
          rfl
        exact ⟨_, cur, 0, onMachine_ok run, moves_of_procs _ _ _ _ ok fun q => SameMemory.refl _,
          .inl rfl⟩
  | some p =>
      have exited : (s.machine.procs p).parent = some cur ∧
          (s.machine.procs p).state = .zombie := by
        have test := List.find?_some found
        exact of_decide_eq_true test
      have used : (s.proc p).state ≠ .unused := by
        change (s.machine.procs p).state ≠ .unused
        rw [exited.2]
        decide
      have wf := ok.wf used
      generalize stackEq : (s.proc p).kstack = k
      have isStack : k ∈ {(s.proc p).kstack} + elsewhere s.machine p +
          (s.held : Multiset Frame) + kept := by
        rw [← stackEq]
        simp
      have managed : Managed setup.boot k :=
        wf.managed k (Multiset.mem_add.mpr (.inr isStack))
      have notTotal := wf.extra_notTotal isStack
      -- The kernel stack is on the free list before the address space is given up.
      generalize freed : (⟨Function.update s.mem k (freedPage s.free.head?), k :: s.free⟩ :
        Kernel) = s1
      have contents : ∀ f ∈ owned s.mem (s.proc p).pgdir, s1.mem f = s.mem f := by
        intro f isOwned
        rw [← freed]
        apply Function.update_of_ne
        rintro rfl
        exact notTotal (mem_total.mpr (.inl isOwned))
      have sum : total s1 (s.proc p).pgdir = (s.free : Multiset Frame) +
          frames s.mem (s.proc p) := by
        unfold total
        rw [(space_congr contents).2.1, ← freed, frames_of_used used, stackEq,
          ← Multiset.cons_coe, ← Multiset.singleton_add]
        ac_rfl
      have whole : Wf setup.boot s1 (s.proc p).pgdir
          (elsewhere s.machine p + (s.held : Multiset Frame) + kept) := by
        have all' : total s1 (s.proc p).pgdir +
            (elsewhere s.machine p + (s.held : Multiset Frame) + kept) = all := by
          rw [sum, ← ok.balance, inUse_split s.machine p]
          ac_rfl
        exact ⟨all' ▸ ok.nodup, fun f isHere => ok.managed f (all' ▸ isHere)⟩
      obtain ⟨s2, run, released⟩ := freevm_spec whole
      have ended : wait setup.boot cur s.machine = .ok (some (s.proc p).pid, ⟨s2,
          Function.update s.machine.procs p { s.proc p with
            kstack := 0, pid := 0, parent := none, state := .unused }, s.machine.nextpid⟩) := by
        have free := kfree_apply managed s.machine.kernel
        rw [show (⟨Function.update s.machine.kernel.mem k
          (freedPage s.machine.kernel.freelist.head?), k :: s.machine.kernel.freelist⟩ : Kernel) =
          s1 from freed] at free
        rw [← stackEq] at free
        simp only [wait, bind_apply, get_apply, found, onKernel, free, setProc, modify_apply,
          run, pure_apply, Function.update_self, Function.update_idem]
      refine ⟨_, p, 0, onMachine_ok ended, moves_of_reap _ _ used ?_ ?_ ?_ ?_, .inl rfl⟩
      · intro q other
        exact Function.update_of_ne other _ _
      · rw [Function.update_self]
      · rw [released.free, sum]
      · intro f notFree notHere
        rw [released.others f]
        · rw [← freed]
          apply Function.update_of_ne
          rintro rfl
          rw [frames_of_used used, stackEq] at notHere
          exact notHere (Multiset.mem_add.mpr (.inl (Multiset.mem_singleton_self _)))
        · rw [sum, Multiset.mem_add, not_or]
          exact ⟨notFree, notHere⟩

theorem growproc_moves {n : BitVec 32} (ok : FramesOk setup all kept s)
    (running : (s.proc cur).state = .running)
    (keeps : (s.proc cur).sz = 0 ∨ n.toInt ≠ -(s.proc cur).sz) :
    PerformsWell setup s (.growproc cur n) := by
  have used : (s.proc cur).state ≠ .unused := by
    rw [running]
    decide
  have low := BitVec.le_toInt n
  have high := BitVec.toInt_lt (x := n)
  obtain ⟨result, sz, kernel, run, space, totals, others⟩ :=
    growproc_space (ok.wf used) (ok.spaces cur used) low high keeps
  have ended : growprocCall setup.boot cur n s.machine = .ok (result,
      ⟨kernel, Function.update s.machine.procs cur { s.proc cur with sz := sz },
        s.machine.nextpid⟩) := by
    simp only [growprocCall, bind_apply, get_apply, onKernel, run, setProc, modify_apply,
      pure_apply]
  have moves := moves_of_space (.growproc cur n) (kernel.mem (s.proc cur).kstack) ok used rfl
    (fun q other => Function.update_of_ne other _ _) (Function.update_self _ _ _) space totals
    others
  rw [Function.update_eq_self] at moves
  exact ⟨_, cur, 0, onMachine_ok ended, moves, .inl rfl⟩

theorem exec_moves (mode : VideoMode setup.boot) (path : List UInt8)
    (file : Option (List UInt8)) {argv : List (List UInt8)} (ok : FramesOk setup all kept s)
    (running : (s.proc cur).state = .running) (short : ∀ arg ∈ argv, arg.length < 33554432) :
    PerformsWell setup s (.exec cur path file argv) := by
  have used : (s.proc cur).state ≠ .unused := by
    rw [running]
    decide
  let proc : ExecProc := ⟨(s.proc cur).pgdir, (s.proc cur).sz,
    getWord (s.mem (s.proc cur).kstack) 4076, getWord (s.mem (s.proc cur).kstack) 4088, []⟩
  obtain ⟨result, new, kernel, run, space, totals, others⟩ :=
    @exec_space setup.boot s.machine.kernel _ mode path file argv proc (ok.wf used)
      (ok.spaces cur used) short
  have ended : perform setup s (.exec cur path file argv) = .ok ⟨⟨⟨Function.update kernel.mem
      (s.proc cur).kstack (setWord (setWord (kernel.mem (s.proc cur).kstack) 4076 new.eip) 4088
        new.esp), kernel.freelist⟩, Function.update s.machine.procs cur
      { s.proc cur with pgdir := new.pgdir, sz := new.sz }, s.machine.nextpid⟩, s.held⟩ := by
    simp only [perform, execCall]
    rw [run]
  exact ⟨_, cur, 0, ended, moves_of_space _ _ ok used rfl
    (fun q other => Function.update_of_ne other _ _) (Function.update_self _ _ _) space totals
    others, .inl rfl⟩

/-- The process stores to one of its pages. -/
theorem store_moves {va : Nat} (byte : UInt8) (ok : FramesOk setup all kept s)
    (running : (s.proc cur).state = .running) (user : va < kernbase)
    (allowed : PteUserW (pte s.mem (s.proc cur).pgdir (va / 4096))) :
    PerformsWell setup s (.store cur va byte) := by
  have used : (s.proc cur).state ≠ .unused := by
    rw [running]
    decide
  have vLt : va / 4096 < userPages := by
    have top : va < 2147483648 := user
    rw [userPages_eq]
    omega
  have wf := ok.wf used
  have space := ok.spaces cur used
  refine ⟨_, cur, 0, rfl, ?_, .inl rfl⟩
  unfold memmove
  generalize pageEq : (fun i : Fin 4096 => if va % 4096 ≤ i.val ∧ i.val < va % 4096 + [byte].length
    then [byte].getD (i.val - va % 4096) 0
    else s.machine.kernel.mem
      (pteAddr (pte s.machine.kernel.mem (s.machine.procs cur).pgdir (va / 4096))) i) = page
  obtain ⟨tables, entries, -, -⟩ := wf.storePage vLt allowed.1 page
  have sameFrames := owned_congr tables fun u _ => entries u
  refine ⟨⟨?_, ?_, ?_, ?_⟩, ?_, ?_⟩
  · intro q _
    exact SameMemory.refl _
  · intro f _ notThere _
    apply Function.update_of_ne
    rintro rfl
    apply notThere
    rw [frames_of_used used]
    exact Multiset.mem_add.mpr (.inr (mem_owned.mpr (.inr (.inr ⟨_, vLt, allowed.1, rfl⟩))))
  · rw [add_zero, frames_of_used used]
    change _ + frames _ (s.proc cur) + _ = _
    rw [frames_of_used used]
    exact congrArg (fun b => (s.free : Multiset Frame) + ({(s.proc cur).kstack} + b) +
      (s.held : Multiset Frame)) sameFrames
  · intro _
    refine ⟨space.bound, ?_, space.kernel.congr fun u _ => entries u⟩
    intro v below
    exact (iff_of_eq (congrArg PteP (entries v))).trans (space.below v below)
  · intro notWriter
    exact absurd rfl notWriter
  · intro unused
    exact absurd unused used

theorem kalloc_moves (ok : FramesOk setup all kept s) : PerformsWell setup s .kalloc := by
  cases frames : s.free with
  | nil =>
      refine ⟨s, setup.initproc, 0, ?_,
        moves_of_procs _ _ _ _ ok fun q => SameMemory.refl _, .inl rfl⟩
      simp only [perform, kalloc_nil frames]
  | cons f rest =>
      refine ⟨⟨⟨⟨s.mem, rest⟩, s.machine.procs, s.machine.nextpid⟩, f :: s.held⟩,
        setup.initproc, 0, ?_, moves_of_holders _ setup.initproc ok (fun _ _ _ => rfl) ?_, .inl rfl⟩
      · simp only [perform, kalloc_cons frames]
      · rw [frames, ← Multiset.cons_coe, ← Multiset.cons_coe, Multiset.cons_add,
          Multiset.add_cons]

theorem kfree_moves {f : Frame} (ok : FramesOk setup all kept s) (isHeld : f ∈ s.held) :
    PerformsWell setup s (.kfree f) := by
  have managed : Managed setup.boot f := by
    apply ok.managed
    rw [← ok.balance]
    exact Multiset.mem_add.mpr (.inl (Multiset.mem_add.mpr (.inr (Multiset.mem_coe.mpr isHeld))))
  refine ⟨⟨⟨⟨Function.update s.mem f (freedPage s.free.head?), f :: s.free⟩, s.machine.procs,
    s.machine.nextpid⟩, s.held.erase f⟩, setup.initproc, 0, ?_,
    moves_of_holders _ setup.initproc ok ?_ ?_, .inl rfl⟩
  · simp only [perform, kfree_apply managed]
  · rintro g notHeld -
    apply Function.update_of_ne
    rintro rfl
    exact notHeld isHeld
  · rw [← Multiset.cons_coe, ← Multiset.coe_erase, Multiset.cons_add, ← Multiset.add_cons,
      Multiset.cons_erase (Multiset.mem_coe.mpr isHeld)]

/-- Every event that can happen ends, and moves frames. -/
theorem perform_moves {event : Event} (mode : VideoMode setup.boot)
    (ok : FramesOk setup all kept s) (enabled : Enabled setup s event)
    (careful : Careful s event) : PerformsWell setup s event := by
  cases event with
  | fork cur => exact fork_moves mode ok enabled
  | exec cur path file argv => exact exec_moves mode path file ok enabled careful
  | growproc cur n => exact growproc_moves ok enabled careful
  | exit cur =>
      have used : (s.proc cur).state ≠ .unused := by
        change (s.machine.procs cur).state ≠ .unused
        rw [enabled.1]
        decide
      refine ⟨_, cur, 0, rfl, moves_of_procs _ _ _ _ ok ?_, .inl rfl⟩
      intro q
      have exited : ProcState.zombie ≠ .unused := by decide
      by_cases isSelf : q = cur
      · subst isSelf
        simp only [if_true]
        refine ⟨?_, ?_, ?_, iff_of_false exited used⟩ <;> split <;> rfl
      · simp only [if_neg isSelf]
        split
        · exact ⟨rfl, rfl, rfl, Iff.rfl⟩
        · exact SameMemory.refl _
  | wait cur => exact wait_moves ok enabled
  | reschedule p state =>
      refine ⟨_, p, 0, rfl, moves_of_procs _ _ _ _ ok ?_, .inl rfl⟩
      have live {state : ProcState} (schedulable : Schedulable state) : state ≠ .unused := by
        rintro rfl
        revert schedulable
        decide
      intro q
      by_cases isSelf : q = p
      · subst isSelf
        rw [Function.update_self]
        exact ⟨rfl, rfl, rfl, iff_of_false (live enabled.2) (live enabled.1)⟩
      · rw [Function.update_of_ne isSelf]
        exact SameMemory.refl _
  | store cur va byte => exact store_moves byte ok enabled.1 enabled.2.1 enabled.2.2
  | kernelStack p page =>
      refine ⟨_, p, 0, rfl, moves_of_holders _ p ok ?_ rfl, .inl rfl⟩
      rintro f - other
      exact Function.update_of_ne (other enabled) _ _
  | kalloc => exact kalloc_moves ok
  | kfree f => exact kfree_moves ok enabled
  | fill f page =>
      refine ⟨_, setup.initproc, 0, rfl, moves_of_holders _ setup.initproc ok ?_ rfl, .inl rfl⟩
      rintro g notHeld -
      apply Function.update_of_ne
      rintro rfl
      exact notHeld enabled

end Calls

/-! ## Runs -/

/-- The event is a call of `fork`. -/
def Event.isFork : Event → Bool
  | .fork _ => true
  | _ => false

section Runs

variable {setup : Setup} {all kept : Multiset Frame} {s s' : System}

theorem step_eq_some {event : Event} (stepped : step setup s event = some s') :
    Enabled setup s event ∧ perform setup s event = .ok s' := by
  unfold step at stepped
  split at stepped
  · next enabled =>
    refine ⟨enabled, ?_⟩
    cases ended : perform setup s event with
    | ok last =>
        rw [ended] at stepped
        cases stepped
        rfl
    | error stop =>
        rw [ended] at stepped
        cases stepped
  · cases stepped

/-- What one step does to the frames. -/
theorem FramesOk.step {event : Event} (mode : VideoMode setup.boot)
    (ok : FramesOk setup all kept s) (careful : Careful s event)
    (stepped : Vm.step setup s event = some s') :
    ∃ p lost, Moves setup s event s' p lost ∧ FramesOk setup all (kept + lost) s' ∧
      (lost = 0 ∨ lost.card = 1 ∧ Splits setup s event) := by
  obtain ⟨enabled, ended⟩ := step_eq_some stepped
  obtain ⟨last, p, lost, run, moves, few⟩ := perform_moves mode ok enabled careful
  rw [run] at ended
  cases ended
  exact ⟨p, lost, moves, moves.toTransfer.framesOk ok, few⟩

theorem isFork_of_splits {event : Event} (splits : Splits setup s event) :
    event.isFork = true := by
  cases event with
  | fork cur => rfl
  | exec _ _ _ _ | growproc _ _ | exit _ | wait _ | reschedule _ _ | store _ _ _
    | kernelStack _ _ | kalloc | kfree _ | fill _ _ => exact splits.elim

/-- In a run at most one frame is lost for a call of `fork`, and none where the free
list does not end between a page and its table. -/
theorem FramesOk.run {events : List Event} (mode : VideoMode setup.boot)
    (ok : FramesOk setup all kept s)
    (ran : LabelledRuns.run (Vm.step setup) s events = some s')
    (careful : LabelledRuns.RunMeets (Vm.step setup) Careful s events) :
    ∃ lost : Multiset Frame, FramesOk setup all (kept + lost) s' ∧
      lost.card ≤ events.countP Event.isFork ∧
      (LabelledRuns.RunMeets (Vm.step setup) (fun s event => ¬ Splits setup s event) s events →
        lost = 0) := by
  induction events generalizing s kept with
  | nil =>
      cases ran
      exact ⟨0, (add_zero kept).symm ▸ ok, Nat.zero_le _, fun _ => rfl⟩
  | cons event events ih =>
      obtain ⟨next, stepped, rest⟩ := LabelledRuns.run_cons_eq_some.mp ran
      obtain ⟨now, later⟩ := (LabelledRuns.runMeets_cons_of_some stepped).mpr careful
      obtain ⟨p, first, -, ok', few⟩ := ok.step mode now stepped
      obtain ⟨lost, ended, bound, clean⟩ := ih ok' rest later
      refine ⟨first + lost, add_assoc kept first lost ▸ ended, ?_, ?_⟩
      · rw [Multiset.card_add, List.countP_cons]
        rcases few with rfl | ⟨one, splits⟩
        · rw [Multiset.card_zero]
          omega
        · rw [one, if_pos (isFork_of_splits splits)]
          omega
      · intro meets
        obtain ⟨here, after⟩ := (LabelledRuns.runMeets_cons_of_some stepped).mpr meets
        rcases few with rfl | ⟨-, splits⟩
        · rw [clean after, add_zero]
        · exact absurd splits here

end Runs

end Xv6.Vm
