import Mathlib.Order.Interval.Finset.Nat
import Xv6.KernelMapping
import Xv6.SizeChanges

/-!
# The frame buffer

`setupkvm` maps the frame buffer at `DEVSPACE - vram_size`.  When this address is
inside a page, `mappages` rounds it down and still begins at the physical address
of the frame buffer, so every pixel is at the wrong place.
-/

namespace Xv6.Vm

open StateTriples

/-- The physical address of a virtual one. -/
def translate (mem : Memory) (d : Frame) (va : Nat) : Option Nat :=
  if PteP (pte mem d (va / 4096)) then
    some (pteAddr (pte mem d (va / 4096)) * 4096 + va % 4096)
  else none

/-- The translations of the comment above `kmap`, with the PCI window and the
frame buffer. -/
structure Translations (boot : Boot) (mem : Memory) (d : Frame) : Prop where
  memory : ∀ a < phystop, translate mem d (kernbase + a) = some a
  pci : ∀ a < 0x10000000,
    translate mem d (pciBarBase + pciVpOffset + a) = some (pciBarBase + a)
  devices : ∀ a, devspace ≤ a → a < 4294967296 → translate mem d a = some a
  frameBuffer : ∀ k < boot.vramSize, translate mem d (devspace - boot.vramSize + k) =
    some ((boot.pvramAddr + k) % 4294967296)

/-- `setupkvm` ends without a panic, and a directory that it returns has the right
translations. -/
def MapsFrameBuffer (boot : Boot) (s : Kernel) : Prop :=
  ∃ result s', setupkvm boot s = .ok (result, s') ∧
    ∀ d, result = some d → Translations boot s'.mem d

/-- An address of a range whose physical start begins a page. -/
theorem translate_of_covers {mem : Memory} {d : Frame} {k : Kmap} {va : Nat}
    (aligned : k.physStart % 4096 = 0) (permLt : k.perm < 4096)
    (mapped : pte mem d (va / 4096) = k.entryOf (va / 4096)) :
    translate mem d va =
      some ((k.physStart + (va / 4096 - k.first) * 4096) % 4294967296 + va % 4096) := by
  have frame : (k.physStart + (va / 4096 - k.first) * 4096) % 4294967296 =
      (k.physStart + (va / 4096 - k.first) * 4096) % 4294967296 / 4096 * 4096 := by omega
  have here : PteP (k.entryOf (va / 4096)) := pteP_rangeEntry _ _ _ _
  unfold translate
  rw [mapped, if_pos here]
  unfold Kmap.entryOf rangeEntry
  rw [frame, pteAddr_entry _ permLt]

section Ready

variable {boot : Boot} {s s' : Kernel} {d : Frame} {extra : Multiset Frame}

theorem KernelReady.memory (ready : KernelReady boot s s' d extra) (a : Nat)
    (aLt : a < phystop) : translate s'.mem d (kernbase + a) = some a := by
  have low : 1048576 < boot.dataAddress := boot.extmem_lt_data
  have order := boot.data_le_end
  have high : boot.endAddress < 536870912 := boot.end_lt_phystop
  have aligned := boot.data_aligned
  have aLt' : a < 536870912 := aLt
  by_cases isIo : a < 1048576
  · have mapped := ready.kernel ⟨kernbase, 0, extmem, pteW⟩ (by simp [kmap])
      ((kernbase + a) / 4096) (by
        simp only [Kmap.Covers, Kmap.first, Kmap.count, Kmap.size, kernbase, extmem]
        omega)
    rw [translate_of_covers (by decide) (by decide) mapped]
    simp only [Kmap.first, kernbase, Option.some.injEq]
    omega
  · by_cases isText : a < boot.dataAddress
    · have mapped := ready.kernel ⟨kernbase + extmem, extmem, boot.dataAddress, 0⟩
        (by simp [kmap]) ((kernbase + a) / 4096) (by
          simp only [Kmap.Covers, Kmap.first, Kmap.count, Kmap.size, kernbase, extmem]
          omega)
      rw [translate_of_covers (show extmem % 4096 = 0 by decide)
        (show (0 : Nat) < 4096 by decide) mapped]
      simp only [Kmap.first, kernbase, extmem, Option.some.injEq]
      omega
    · have mapped := ready.kernel
        ⟨boot.dataAddress + kernbase, boot.dataAddress, phystop, pteW⟩
        (by simp [kmap]) ((kernbase + a) / 4096) (by
          simp only [Kmap.Covers, Kmap.first, Kmap.count, Kmap.size, kernbase, phystop]
          omega)
      rw [translate_of_covers aligned (show pteW < 4096 by decide) mapped]
      simp only [Kmap.first, kernbase, Option.some.injEq]
      omega

theorem KernelReady.pci (ready : KernelReady boot s s' d extra) (a : Nat)
    (aLt : a < 0x10000000) :
    translate s'.mem d (pciBarBase + pciVpOffset + a) = some (pciBarBase + a) := by
  have mapped := ready.kernel
    ⟨pciBarBase + pciVpOffset, pciBarBase, 0x10000000 + pciBarBase, pteW⟩
    (by simp [kmap]) ((pciBarBase + pciVpOffset + a) / 4096) (by
      simp only [Kmap.Covers, Kmap.first, Kmap.count, Kmap.size, pciBarBase, pciVpOffset]
      omega)
  rw [translate_of_covers (by decide) (by decide) mapped]
  simp only [Kmap.first, pciBarBase, pciVpOffset, Option.some.injEq]
  omega

theorem KernelReady.devices (ready : KernelReady boot s s' d extra) (a : Nat)
    (low : devspace ≤ a) (high : a < 4294967296) : translate s'.mem d a = some a := by
  have low' : 4261412864 ≤ a := low
  have mapped := ready.kernel ⟨devspace, devspace, 0, pteW⟩ (by simp [kmap]) (a / 4096) (by
    simp only [Kmap.Covers, Kmap.first, Kmap.count, Kmap.size, devspace]
    omega)
  rw [translate_of_covers (by decide) (by decide) mapped]
  simp only [Kmap.first, devspace, Option.some.injEq]
  omega

/-- Where a byte of the frame buffer is mapped. -/
theorem KernelReady.frameBuffer (ready : KernelReady boot s s' d extra)
    (mode : VideoMode boot) (aligned : boot.pvramAddr % 4096 = 0) {k : Nat}
    (kLt : k < boot.vramSize) :
    translate s'.mem d (devspace - boot.vramSize + k) =
      some ((boot.pvramAddr + k + (4096 - boot.vramSize % 4096) % 4096) % 4294967296) := by
  have fits := mode.fits
  have base := mode.base
  have mapped := ready.kernel
    ⟨(devspace + 4294967296 - boot.vramSize) % 4294967296, boot.pvramAddr,
      (boot.pvramAddr + boot.vramSize) % 4294967296, pteW⟩
    (by simp [kmap]) ((devspace - boot.vramSize + k) / 4096) (by
      simp only [Kmap.Covers, Kmap.first, Kmap.count, Kmap.size, devspace]
      omega)
  rw [translate_of_covers aligned (show pteW < 4096 by decide) mapped]
  simp only [Kmap.first, devspace, Option.some.injEq]
  omega

end Ready

/-- The frame buffer is at its place exactly when its size is a multiple of the
page size, or `setupkvm` has too few frames to build a directory at all. -/
theorem mapsFrameBuffer_iff {boot : Boot} {s : Kernel} {extra : Multiset Frame}
    (mode : VideoMode boot) (wf : FreeWf boot s extra)
    (aligned : boot.pvramAddr % 4096 = 0) :
    MapsFrameBuffer boot s ↔
      boot.vramSize % 4096 = 0 ∨ s.freelist.length < kernelFrames boot := by
  have base := mode.base
  rcases setupkvm_spec mode wf with ⟨enough, d, s', run, ready⟩ | ⟨few, s', run, _⟩
  · rw [or_iff_left (by omega)]
    constructor
    · rintro ⟨result, last, ended, right⟩
      rw [run] at ended
      cases ended
      have first := (right d rfl).frameBuffer 0 mode.nonempty
      rw [ready.frameBuffer mode aligned mode.nonempty] at first
      have same := Option.some.inj first
      omega
    · intro whole
      refine ⟨some d, s', run, fun e same => ?_⟩
      cases same
      refine ⟨ready.memory, ready.pci, ready.devices, fun k kLt => ?_⟩
      rw [ready.frameBuffer mode aligned kLt, whole, Nat.sub_zero, Nat.mod_self,
        Nat.add_zero]
  · refine iff_of_true ⟨none, s', run, fun d same => ?_⟩ (.inr few)
    cases same

/-- A free list of `n` frames from 600 on. -/
def freeFrames (n : Nat) : Kernel := ⟨fun _ => zeroPage, List.range' 600 n⟩

theorem managed_of_between {boot : Boot} {f : Nat} (low : boot.endAddress ≤ 2457600)
    (first : 600 ≤ f) (last : f < 131072) : Managed boot f := by
  have above : boot.endAddress ≤ f * 4096 := by omega
  have below : f * 4096 < 536870912 := by omega
  exact ⟨above, below⟩

theorem freeFrames_wf {boot : Boot} {n : Nat} (low : boot.endAddress ≤ 2457600)
    (few : n ≤ 100000) : FreeWf boot (freeFrames n) 0 := by
  refine ⟨?_, fun f isHere => ?_⟩
  · rw [add_zero]
    exact Multiset.coe_nodup.mpr List.nodup_range'
  · rw [add_zero, Multiset.mem_coe] at isHere
    obtain ⟨first, last⟩ := List.mem_range'_1.mp isHere
    exact managed_of_between low first (by omega)

/-- The tables of `kmap` are in the upper half of the directory. -/
theorem kernelFrames_le {boot : Boot} (mode : VideoMode boot) :
    kernelFrames boot ≤ 513 := by
  have upper : (Finset.range dirEntries).filter (Wanted (kmap boot)) ⊆
      Finset.Ico 512 1024 := by
    intro i isHere
    obtain ⟨_, k, inMap, inRange⟩ := Finset.mem_filter.mp isHere
    have valid := kmap_valid mode k inMap
    have kernel := valid.user_le
    have size := userPages_eq
    have iLt := valid.index_lt inRange
    obtain ⟨u, low, _, rfl⟩ := inRange
    exact Finset.mem_Ico.mpr ⟨by omega, iLt⟩
  have card := Finset.card_le_card upper
  rw [Nat.card_Ico] at card
  unfold kernelFrames
  omega

theorem smallBoot_mode : VideoMode smallBoot :=
  ⟨by decide, by decide, by decide⟩

/-- 1024 × 768 pixels. -/
def alignedBoot : Boot := { smallBoot with vramSize := 0x300000 }

theorem alignedBoot_mapsFrameBuffer : MapsFrameBuffer alignedBoot (freeFrames 600) :=
  (mapsFrameBuffer_iff ⟨by decide, by decide, by decide⟩
    (freeFrames_wf (by decide) (by decide)) (by decide)).mpr (.inl (by decide))

/-- 800 × 600 pixels: the first byte of the frame buffer is mapped to its byte
1024. -/
theorem smallBoot_not_mapsFrameBuffer :
    ¬ MapsFrameBuffer smallBoot (freeFrames 600) := by
  have wf : FreeWf smallBoot (freeFrames 600) 0 := freeFrames_wf (by decide) (by decide)
  have few := kernelFrames_le smallBoot_mode
  rcases setupkvm_spec smallBoot_mode wf with ⟨_, d, s', run, ready⟩ | ⟨short, _⟩
  · rintro ⟨result, last, ended, right⟩
    rw [run] at ended
    cases ended
    have first := (right d rfl).frameBuffer 0 (by decide)
    rw [ready.frameBuffer smallBoot_mode (by decide) (by decide)] at first
    exact absurd first (by decide)
  · have length : (freeFrames 600).freelist.length = 600 := List.length_range'
    omega

end Xv6.Vm
