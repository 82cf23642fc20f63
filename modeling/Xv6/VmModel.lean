import Xv6.PageTable
import Xv6.StateTriples

/-!
# Virtual memory

The functions of `vm.c` and `kalloc.c` over the bytes of physical memory.  The
free list of the allocator is the list of its frames, first frame first; the
link that `kfree` stores in a freed frame is part of the frame's contents.
Addresses and sizes are the 32-bit values of the source, and pointers to frames
are frame numbers.

A loop that needs more iterations than there are pages stops with
`diverges`.
-/

namespace Xv6.Vm

open ByteFields

/-- Where a call of the kernel does not return. -/
inductive VmStop where
  /-- "kfree" -/
  | kfree
  /-- "remap" -/
  | remap
  /-- "PHYSTOP too high" -/
  | phystopTooHigh
  /-- "loaduvm: addr must be page aligned" -/
  | notAligned
  /-- "loaduvm: address should exist" -/
  | addressMissing
  /-- "clearpteu" -/
  | clearpteu
  /-- "copyuvm: pte should exist" -/
  | pteMissing
  /-- "copyuvm: page not present" -/
  | notPresent
  /-- a loop goes on for ever -/
  | diverges
  deriving DecidableEq

/-- `KERNBASE` -/
abbrev kernbase : Nat := 0x80000000

/-- `EXTMEM` -/
abbrev extmem : Nat := 0x100000

/-- `PHYSTOP` -/
abbrev phystop : Nat := 0x20000000

/-- `DEVSPACE` -/
abbrev devspace : Nat := 0xfe000000

/-- `PCI_BAR_BASE` -/
abbrev pciBarBase : Nat := 0x80000000

/-- `PCI_VP_OFFSET` -/
abbrev pciVpOffset : Nat := 0x40000000

/-- `PTE_W` -/
abbrev pteW : Nat := 2

/-- `PTE_W | PTE_U` -/
abbrev pteWU : Nat := 6

/-- What the linker and the firmware decide: the physical addresses of `end`
and `data`, and the frame buffer in `gpu`.  The kernel is linked at `EXTMEM`,
and `data` begins a page of it. -/
structure Boot where
  endAddress : Nat
  dataAddress : Nat
  pvramAddr : Nat
  vramSize : Nat
  extmem_lt_data : extmem < dataAddress
  data_le_end : dataAddress ≤ endAddress
  end_lt_phystop : endAddress < phystop
  data_aligned : dataAddress % 4096 = 0

/-- Physical memory and the free list. -/
structure Kernel where
  mem : Memory
  freelist : List Frame

/-- A call of the kernel. -/
abbrev KernelM := StateT Kernel (Except VmStop)

/-- `PGROUNDDOWN` -/
def pgrounddown (a : Nat) : Nat := a / 4096 * 4096

/-- `PGROUNDUP` -/
def pgroundup (sz : Nat) : Nat := (sz + 4095) % 4294967296 / 4096 * 4096

/-- Store an entry of a directory or a table. -/
def setEntry (mem : Memory) (table : Frame) (i value : Nat) : Memory :=
  Function.update mem table (setWord (mem table) (4 * i) value)

def storeEntry (table : Frame) (i value : Nat) : KernelM Unit :=
  modify fun s => { s with mem := setEntry s.mem table i value }

/-- The page that `memset` fills with zeros. -/
def zeroPage : Page := fun _ => 0

/-- A freed page: `memset` fills it with ones, and its first word is the link
to the page that was freed before it. -/
def freedPage (next : Option Frame) : Page :=
  setWord (fun _ => 1) 0
    (match next with
      | some f => (f * 4096 + kernbase) % 4294967296
      | none => 0)

def storePage (f : Frame) (page : Page) : KernelM Unit :=
  modify fun s => { s with mem := Function.update s.mem f page }

/-- The frame is one that `kfree` accepts. -/
def Managed (boot : Boot) (f : Frame) : Prop :=
  boot.endAddress ≤ f * 4096 ∧ f * 4096 < phystop

instance (boot : Boot) (f : Frame) : Decidable (Managed boot f) :=
  inferInstanceAs (Decidable (_ ∧ _))

/-- `kfree` -/
def kfree (boot : Boot) (f : Frame) : KernelM Unit := do
  if Managed boot f then
    modify fun s =>
      { mem := Function.update s.mem f (freedPage s.freelist.head?)
        freelist := f :: s.freelist }
  else throw .kfree

/-- `kalloc` -/
def kalloc : KernelM (Option Frame) := do
  match (← get).freelist with
  | [] => return none
  | f :: rest =>
      modify fun s => { s with freelist := rest }
      return some f

/-- `walkpgdir` with `alloc` set. -/
def walkpgdirAlloc (pgdir : Frame) (va : Nat) : KernelM (Option (Frame × Nat)) := do
  let s ← get
  if PteP (entry s.mem pgdir (pdx va)) then
    return some (pteAddr (entry s.mem pgdir (pdx va)), ptx va)
  else
    match ← kalloc with
    | none => return none
    | some pgtab =>
        storePage pgtab zeroPage
        storeEntry pgdir (pdx va) (pgtab * 4096 ||| 1 ||| 2 ||| 4)
        return some (pgtab, ptx va)

/-- The loop of `mappages`. -/
def mappagesLoop (pgdir : Frame) (perm last : Nat) : Nat → Nat → Nat → KernelM Int
  | 0, _, _ => throw .diverges
  | fuel + 1, a, pa => do
      match ← walkpgdirAlloc pgdir a with
      | none => return -1
      | some (table, i) =>
          if PteP (entry (← get).mem table i) then throw .remap
          storeEntry table i (pa ||| perm ||| 1)
          if a = last then return 0
          else
            mappagesLoop pgdir perm last fuel ((a + 4096) % 4294967296)
              ((pa + 4096) % 4294967296)

/-- `mappages` -/
def mappages (pgdir : Frame) (va size pa perm : Nat) : KernelM Int :=
  mappagesLoop pgdir perm
    (pgrounddown ((va + size + 4294967295) % 4294967296)) 1048576
    (pgrounddown va) pa

/-- The loop of `deallocuvm`. -/
def deallocuvmLoop (boot : Boot) (pgdir : Frame) (oldsz : Nat) :
    Nat → Nat → KernelM Unit
  | 0, _ => throw .diverges
  | fuel + 1, a => do
      if a < oldsz then
        match walkpgdir (← get).mem pgdir a with
        | none =>
            let a := ((pdx a + 1) * 4194304 % 4294967296 + 4294963200) % 4294967296
            deallocuvmLoop boot pgdir oldsz fuel ((a + 4096) % 4294967296)
        | some (table, i) =>
            let pte := entry (← get).mem table i
            if PteP pte then
              if pteAddr pte = 0 then throw .kfree
              kfree boot (pteAddr pte)
              storeEntry table i 0
            deallocuvmLoop boot pgdir oldsz fuel ((a + 4096) % 4294967296)
      else return ()

/-- `deallocuvm` -/
def deallocuvm (boot : Boot) (pgdir : Frame) (oldsz newsz : Nat) : KernelM Nat := do
  if newsz ≥ oldsz then return oldsz
  deallocuvmLoop boot pgdir oldsz 1048577 (pgroundup newsz)
  return newsz

/-- The loop of `allocuvm`; it returns the value of `allocuvm`. -/
def allocuvmLoop (boot : Boot) (pgdir : Frame) (oldsz newsz : Nat) :
    Nat → Nat → KernelM Nat
  | 0, _ => throw .diverges
  | fuel + 1, a => do
      if a < newsz then
        match ← kalloc with
        | none =>
            let _ ← deallocuvm boot pgdir newsz oldsz
            return 0
        | some mem =>
            storePage mem zeroPage
            if (← mappages pgdir a 4096 (mem * 4096) pteWU) < 0 then
              let _ ← deallocuvm boot pgdir newsz oldsz
              kfree boot mem
              return 0
            else
              allocuvmLoop boot pgdir oldsz newsz fuel ((a + 4096) % 4294967296)
      else return newsz

/-- `allocuvm` -/
def allocuvm (boot : Boot) (pgdir : Frame) (oldsz newsz : Nat) : KernelM Nat := do
  if newsz ≥ kernbase then return 0
  if newsz < oldsz then return oldsz
  allocuvmLoop boot pgdir oldsz newsz 1048577 (pgroundup oldsz)

/-- The loop of `freevm` over the directory. -/
def freevmLoop (boot : Boot) (pgdir : Frame) : List Nat → KernelM Unit
  | [] => return ()
  | i :: rest => do
      let pde := entry (← get).mem pgdir i
      if PteP pde then kfree boot (pteAddr pde)
      freevmLoop boot pgdir rest

/-- `freevm` -/
def freevm (boot : Boot) (pgdir : Frame) : KernelM Unit := do
  let _ ← deallocuvm boot pgdir kernbase 0
  freevmLoop boot pgdir (List.range 1024)
  kfree boot pgdir

/-- An entry of `kmap`. -/
structure Kmap where
  virt : Nat
  physStart : Nat
  physEnd : Nat
  perm : Nat

/-- `kmap`, with the frame buffer that `setupkvm` puts at index 3. -/
def kmap (boot : Boot) : List Kmap :=
  [⟨kernbase, 0, extmem, pteW⟩,
    ⟨kernbase + extmem, extmem, boot.dataAddress, 0⟩,
    ⟨boot.dataAddress + kernbase, boot.dataAddress, phystop, pteW⟩,
    ⟨(devspace + 4294967296 - boot.vramSize) % 4294967296, boot.pvramAddr,
      (boot.pvramAddr + boot.vramSize) % 4294967296, pteW⟩,
    ⟨pciBarBase + pciVpOffset, pciBarBase, 0x10000000 + pciBarBase, pteW⟩,
    ⟨devspace, devspace, 0, pteW⟩]

/-- The loop of `setupkvm`; it returns whether every range was mapped. -/
def setupkvmLoop (boot : Boot) (pgdir : Frame) : List Kmap → KernelM Bool
  | [] => return true
  | k :: rest => do
      if (← mappages pgdir k.virt
          ((k.physEnd + 4294967296 - k.physStart) % 4294967296) k.physStart
          k.perm) < 0 then
        freevm boot pgdir
        return false
      else setupkvmLoop boot pgdir rest

/-- `setupkvm` -/
def setupkvm (boot : Boot) : KernelM (Option Frame) := do
  match ← kalloc with
  | none => return none
  | some pgdir =>
      storePage pgdir zeroPage
      if phystop + kernbase > devspace then throw .phystopTooHigh
      if ← setupkvmLoop boot pgdir (kmap boot) then return some pgdir
      else return none

/-- The loop of `copyuvm` from the directory `pgdir` into `d`. -/
def copyuvmLoop (boot : Boot) (pgdir d : Frame) (sz : Nat) :
    Nat → Nat → KernelM (Option Frame)
  | 0, _ => throw .diverges
  | fuel + 1, i => do
      if i < sz then
        match walkpgdir (← get).mem pgdir i with
        | none => throw .pteMissing
        | some (table, index) =>
            let pte := entry (← get).mem table index
            if ¬ PteP pte then throw .notPresent
            match ← kalloc with
            | none =>
                freevm boot d
                return none
            | some mem =>
                storePage mem ((← get).mem (pteAddr pte))
                if (← mappages d i 4096 (mem * 4096) (pte % 4096)) < 0 then
                  freevm boot d
                  return none
                else copyuvmLoop boot pgdir d sz fuel ((i + 4096) % 4294967296)
      else return some d

/-- `copyuvm` -/
def copyuvm (boot : Boot) (pgdir : Frame) (sz : Nat) : KernelM (Option Frame) := do
  match ← setupkvm boot with
  | none => return none
  | some d => copyuvmLoop boot pgdir d sz 1048577 0

end Xv6.Vm
