import Xv6.ElfRelocation
import Xv6.MadtScan

/-!
# Handing over to the kernel

`UefiMain` allocates one page at 0x50000 and puts there what the kernel needs: a
`struct boot_param`, and behind it a copy of the ACPI table with signature APIC.  The
address of the copy is `boot_param + sizeof(struct boot_param)`, in the arithmetic of
pointers to that structure, and so 98 structures further on.
-/

namespace Xv6.Loader

/-- The low `n` bytes of a number, the lowest first. -/
def bytesOf : Nat → Nat → List UInt8
  | 0, _ => []
  | n + 1, value => UInt8.ofNat value :: bytesOf n (value / 256)

/-- `BootParamAddr` -/
abbrev bootParamAddr : Nat := 0x50000

/-- The offsets of the fields of `struct boot_param`. -/
inductive Field where
  | kernelEntry
  | madtAddr
  | graphicConfig
  | bootstrapGdt
  | bootstrapGdtDesc
  | kernelAddr

def Field.offset : Field → Nat
  | kernelEntry => 0
  | madtAddr => 8
  | graphicConfig => 16
  | bootstrapGdt => 56
  | bootstrapGdtDesc => 80
  | kernelAddr => 90

def Field.size : Field → Nat
  | kernelEntry => 8
  | madtAddr => 8
  | graphicConfig => 40
  | bootstrapGdt => 24
  | bootstrapGdtDesc => 10
  | kernelAddr => 8

/-- `sizeof(struct boot_param)` -/
abbrev bootParamSize : Nat := 98

/-- A store to a field, from a byte of it on. -/
def storeField (field : Field) (within : Nat) (bytes : List UInt8) : Store where
  address := bootParamAddr + field.offset + within
  bytes := bytes

/-- `struct graphic_config` -/
structure GraphicConfig where
  frameBase : BitVec 64
  frameSize : BitVec 64
  horizontalResolution : BitVec 64
  verticalResolution : BitVec 64
  pixelsPerScanLine : BitVec 64

/-- The bytes of the structure. -/
def GraphicConfig.bytes (config : GraphicConfig) : List UInt8 :=
  bytesOf 8 config.frameBase.toNat ++ bytesOf 8 config.frameSize.toNat ++
    bytesOf 8 config.horizontalResolution.toNat ++
    bytesOf 8 config.verticalResolution.toNat ++ bytesOf 8 config.pixelsPerScanLine.toNat

/-- `set_gdt`, for the descriptor at an index. -/
def setGdt (index type base lim : Nat) : Store :=
  storeField .bootstrapGdt (8 * index)
    (bytesOf 2 ((lim >>> 12) &&& 0xFFFF) ++ bytesOf 2 (base &&& 0xFFFF) ++
      bytesOf 1 ((base >>> 16) &&& 0xFF) ++ bytesOf 1 (0x90 ||| type) ++
      bytesOf 1 (0xC0 ||| ((lim >>> 28) &&& 0xF)) ++ bytesOf 1 ((base >>> 24) &&& 0xFF))

abbrev staX : Nat := 0x8
abbrev staR : Nat := 0x2
abbrev staW : Nat := 0x2

/-- `AsciiStrnCmp`: the difference of the first characters that differ, or zero. -/
def asciiStrnCmp (first second : Nat → UInt8) : Nat → Nat → Int
  | _, 0 => 0
  | i, n + 1 =>
      if first i ≠ second i ∨ first i = 0 then
        ((first i).toNat : Int) - (second i).toNat
      else asciiStrnCmp first second (i + 1) n

/-- The string "APIC" -/
def apic : Nat → UInt8
  | 0 => 65
  | 1 => 80
  | 2 => 73
  | 3 => 67
  | _ => 0

/-- The length of the XSDT and the tables that it points to. -/
structure Xsdt where
  len : BitVec 32
  pointerOthers : Nat → Madt.Table

/-- The local `entries` -/
def Xsdt.entries (xsdt : Xsdt) : Nat :=
  (xsdt.len.toNat + 2 ^ 64 - 36) % 2 ^ 64 / 8

/-- The value of `boot_param->madt_addr`. -/
def madtCopyAddr : Nat :=
  bootParamAddr + bootParamSize * bootParamSize

/-- `CopyMem` of the table. -/
def madtCopy (table : Madt.Table) : Store where
  address := madtCopyAddr
  bytes := (List.range (Madt.len table)).map table

/-- The body of the loop over the tables. -/
def handOverTable (table : Madt.Table) : List Store :=
  if asciiStrnCmp table apic 0 4 = 0 then
    [storeField .madtAddr 0 (bytesOf 8 madtCopyAddr), madtCopy table]
  else []

/-- What `UefiMain` writes before the loop over the tables. -/
def handOverConfig (kernelBaseAddr : BitVec 64) (config : GraphicConfig) : List Store :=
  [storeField .kernelEntry 0 (bytesOf 8 kernelBaseAddr.toNat),
    storeField .graphicConfig 0 config.bytes]

/-- What it writes behind it. -/
def handOverGdt (kernelBaseAddr : BitVec 64) : List Store :=
  [storeField .kernelAddr 0 (bytesOf 8 kernelBaseAddr.toNat),
    storeField .bootstrapGdtDesc 0 (bytesOf 2 (8 * 3)),
    storeField .bootstrapGdtDesc 2
      (bytesOf 8 (bootParamAddr + Field.bootstrapGdt.offset)),
    storeField .bootstrapGdt 0 (bytesOf 8 0),
    setGdt 1 (staX ||| staR) 0 0xffffffff,
    setGdt 2 staW 0 0xffffffff]

/-- All that `UefiMain` writes for the kernel. -/
def handOver (kernelBaseAddr : BitVec 64) (config : GraphicConfig) (xsdt : Xsdt) :
    List Store :=
  handOverConfig kernelBaseAddr config ++
    ((List.range xsdt.entries).flatMap fun i => handOverTable (xsdt.pointerOthers i)) ++
    handOverGdt kernelBaseAddr

/-! ## What is asked of it -/

/-- The store is in the page that was allocated. -/
def Store.InPage (store : Store) : Prop :=
  ∀ k < store.bytes.length,
    bootParamAddr ≤ store.address + k ∧ store.address + k < bootParamAddr + 4096

/-- The store leaves a field of the structure. -/
def Store.ApartFrom (store : Store) (field : Field) : Prop :=
  ∀ k < store.bytes.length, ∀ j < field.size,
    store.address + k ≠ bootParamAddr + field.offset + j

/-- All stores are in the page, and the copies of tables leave the fields that
`graphic_init` and `mpinit_uefi` read. -/
def StaysInPage (kernelBaseAddr : BitVec 64) (config : GraphicConfig) (xsdt : Xsdt) : Prop :=
  (∀ store ∈ handOver kernelBaseAddr config xsdt, store.InPage) ∧
    ∀ i < xsdt.entries, (madtCopy (xsdt.pointerOthers i)).ApartFrom .graphicConfig ∧
      (madtCopy (xsdt.pointerOthers i)).ApartFrom .madtAddr

/-- The signature of the table is "APIC". -/
def IsApic (table : Madt.Table) : Prop :=
  table 0 = 65 ∧ table 1 = 80 ∧ table 2 = 73 ∧ table 3 = 67

/-! ## The stores -/

theorem length_bytesOf (n value : Nat) : (bytesOf n value).length = n := by
  induction n generalizing value with
  | zero => rfl
  | succ n ih => rw [bytesOf, List.length_cons, ih]

/-- A store inside a field is in the page. -/
theorem storeField_inPage {field : Field} {within : Nat} {bytes : List UInt8}
    (fits : field.offset + within + bytes.length ≤ bootParamSize) :
    (storeField field within bytes).InPage := by
  intro k isByte
  simp only [storeField, bootParamAddr, bootParamSize] at *
  omega

theorem handOverConfig_inPage (kernelBaseAddr : BitVec 64) (config : GraphicConfig) :
    ∀ store ∈ handOverConfig kernelBaseAddr config, store.InPage := by
  simp only [handOverConfig, List.forall_mem_cons]
  refine ⟨storeField_inPage ?_, storeField_inPage ?_, nofun⟩
  · rw [length_bytesOf]
    decide
  · simp only [GraphicConfig.bytes, List.length_append, length_bytesOf]
    decide

theorem handOverGdt_inPage (kernelBaseAddr : BitVec 64) :
    ∀ store ∈ handOverGdt kernelBaseAddr, store.InPage := by
  simp only [handOverGdt, setGdt, List.forall_mem_cons]
  refine ⟨storeField_inPage ?_, storeField_inPage (by decide), storeField_inPage (by decide),
    storeField_inPage (by decide), storeField_inPage (by decide),
    storeField_inPage (by decide), nofun⟩
  rw [length_bytesOf]
  decide

theorem asciiStrnCmp_eq_zero_iff (table : Madt.Table) :
    asciiStrnCmp table apic 0 4 = 0 ↔ IsApic table := by
  have char (i : Nat) (notZero : apic i ≠ 0) (rest : Int) :
      (if table i ≠ apic i ∨ table i = 0 then ((table i).toNat : Int) - (apic i).toNat
        else rest) = 0 ↔ table i = apic i ∧ rest = 0 := by
    by_cases same : table i = apic i
    · rw [same]
      simp [notZero]
    · have differ : ((table i).toNat : Int) - (apic i).toNat ≠ 0 := by
        intro isZero
        exact same (UInt8.toNat_inj.mp (by omega))
      simp [same, differ]
  simp only [asciiStrnCmp]
  rw [char 0 (by decide), char 1 (by decide), char 2 (by decide), char 3 (by decide)]
  simp only [IsApic, apic, and_true]

/-- The copy of a table lies behind the page. -/
theorem madtCopy_inPage_iff (table : Madt.Table) :
    (madtCopy table).InPage ↔ Madt.len table = 0 := by
  have length : (madtCopy table).bytes.length = Madt.len table := by
    rw [madtCopy, List.length_map, List.length_range]
  have address : (madtCopy table).address = 0x52584 := rfl
  unfold Store.InPage
  rw [length, address]
  constructor
  · intro inside
    by_contra notEmpty
    have first := inside 0 (Nat.pos_of_ne_zero notEmpty)
    simp only [bootParamAddr] at first
    omega
  · intro empty k isByte
    omega

theorem madtCopy_apartFrom (table : Madt.Table) (field : Field) :
    (madtCopy table).ApartFrom field := by
  have address : (madtCopy table).address = 0x52584 := rfl
  intro k _ j isByte
  rw [address]
  simp only [bootParamAddr]
  cases field <;> simp only [Field.offset, Field.size] at isByte ⊢ <;> omega

theorem handOverTable_inPage_iff (table : Madt.Table) :
    (∀ store ∈ handOverTable table, store.InPage) ↔ (IsApic table → Madt.len table = 0) := by
  unfold handOverTable
  by_cases isApic : asciiStrnCmp table apic 0 4 = 0
  · rw [if_pos isApic, forall_prop_of_true ((asciiStrnCmp_eq_zero_iff table).mp isApic),
      ← madtCopy_inPage_iff]
    simp only [List.forall_mem_cons]
    constructor
    · rintro ⟨-, copied, -⟩
      exact copied
    · intro copied
      exact ⟨storeField_inPage (by decide), copied, nofun⟩
  · rw [if_neg isApic]
    exact iff_of_true nofun fun isTable =>
      absurd ((asciiStrnCmp_eq_zero_iff table).mpr isTable) isApic

theorem tables_inPage_iff (xsdt : Xsdt) :
    (∀ store ∈ (List.range xsdt.entries).flatMap fun i =>
        handOverTable (xsdt.pointerOthers i), store.InPage) ↔
      ∀ i < xsdt.entries, IsApic (xsdt.pointerOthers i) →
        Madt.len (xsdt.pointerOthers i) = 0 := by
  simp only [List.forall_mem_flatMap, List.mem_range, handOverTable_inPage_iff]

/-- What is handed over stays in its page exactly if no table with the signature APIC
has a length other than zero. -/
theorem staysInPage_iff (kernelBaseAddr : BitVec 64) (config : GraphicConfig) (xsdt : Xsdt) :
    StaysInPage kernelBaseAddr config xsdt ↔
      ∀ i < xsdt.entries, IsApic (xsdt.pointerOthers i) →
        Madt.len (xsdt.pointerOthers i) = 0 := by
  rw [StaysInPage, handOver, List.forall_mem_append, List.forall_mem_append, tables_inPage_iff]
  constructor
  · rintro ⟨⟨⟨-, inPage⟩, -⟩, -⟩
    exact inPage
  · intro inPage
    exact ⟨⟨⟨handOverConfig_inPage kernelBaseAddr config, inPage⟩,
      handOverGdt_inPage kernelBaseAddr⟩,
      fun i _ => ⟨madtCopy_apartFrom _ _, madtCopy_apartFrom _ _⟩⟩

/-- An XSDT with one table, of the signature APIC and 44 bytes. -/
def oneApic : Xsdt where
  len := 44
  pointerOthers := fun _ offset => if offset = 4 then 44 else apic offset

/-- The copy begins at 0x52584, behind the page. -/
theorem oneApic_outside :
    madtCopyAddr = 0x52584 ∧
      ¬StaysInPage 0x100000 ⟨0x80000000, 1920000, 800, 600, 800⟩ oneApic := by
  refine ⟨rfl, ?_⟩
  rintro ⟨inPage, -⟩
  rw [handOver, List.forall_mem_append, List.forall_mem_append, tables_inPage_iff] at inPage
  have empty := inPage.1.2 0 (by decide) ⟨rfl, rfl, rfl, rfl⟩
  exact absurd empty (by decide)

end Xv6.Loader
