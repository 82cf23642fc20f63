import Mathlib.Logic.Function.Basic
import Xv6.ByteFields

/-!
# Page tables in physical memory

Physical memory is a map from frame numbers to pages of 4096 bytes, and the
directory and the tables of an address space are pages whose words are the
entries of `mmu.h`.  The kernel's direct mapping `P2V` is the identity on
frames.
-/

namespace Xv6

open ByteFields

/-- `PGSIZE` -/
abbrev pgsize : Nat := 4096

/-- A physical page number. -/
abbrev Frame := Nat

/-- The contents of a frame. -/
abbrev Page := Bytes pgsize

/-- Physical memory. -/
abbrev Memory := Frame → Page

/-- `PDX` -/
def pdx (va : Nat) : Nat :=
  va / 4194304 % 1024

/-- `PTX` -/
def ptx (va : Nat) : Nat :=
  va / 4096 % 1024

/-- `PTE_P` is set. -/
def PteP (pte : Nat) : Prop :=
  pte % 2 = 1

/-- `PTE_U` is set. -/
def PteU (pte : Nat) : Prop :=
  pte / 4 % 2 = 1

instance (pte : Nat) : Decidable (PteP pte) :=
  inferInstanceAs (Decidable (_ = _))

instance (pte : Nat) : Decidable (PteU pte) :=
  inferInstanceAs (Decidable (_ = _))

/-- The frame of `PTE_ADDR`. -/
def pteAddr (pte : Nat) : Frame :=
  pte / 4096

/-- The entry of a directory or a table. -/
def entry (mem : Memory) (table : Frame) (i : Nat) : Nat :=
  getWord (mem table) (4 * i)

/-- `walkpgdir` with `alloc` zero: the table and the index of the entry, or
the null pointer when the directory has no table there. -/
def walkpgdir (mem : Memory) (pgdir : Frame) (va : Nat) :
    Option (Frame × Nat) :=
  if PteP (entry mem pgdir (pdx va)) then
    some (pteAddr (entry mem pgdir (pdx va)), ptx va)
  else none

/-- The entry that `walkpgdir` finds. -/
def pteOf (mem : Memory) (pgdir : Frame) (va : Nat) : Option Nat :=
  (walkpgdir mem pgdir va).map fun place => entry mem place.1 place.2

/-- The page of the address is present and accessible to the user. -/
def UserMapped (mem : Memory) (pgdir : Frame) (va : Nat) : Prop :=
  ∃ pte ∈ pteOf mem pgdir va, PteP pte ∧ PteU pte

/-- The directory has a table for the address. -/
def HasTable (mem : Memory) (pgdir : Frame) (va : Nat) : Prop :=
  PteP (entry mem pgdir (pdx va))

instance (mem : Memory) (pgdir : Frame) (va : Nat) :
    Decidable (UserMapped mem pgdir va) :=
  inferInstanceAs (Decidable (∃ pte ∈ pteOf mem pgdir va, _))

instance (mem : Memory) (pgdir : Frame) (va : Nat) :
    Decidable (HasTable mem pgdir va) :=
  inferInstanceAs (Decidable (PteP _))

/-- The frame is the directory or one of its tables. -/
def IsTableFrame (mem : Memory) (pgdir f : Frame) : Prop :=
  f = pgdir ∨ ∃ i, PteP (entry mem pgdir i) ∧ f = pteAddr (entry mem pgdir i)

theorem pteOf_eq_none {mem : Memory} {pgdir : Frame} {va : Nat} :
    pteOf mem pgdir va = none ↔ ¬ HasTable mem pgdir va := by
  unfold pteOf walkpgdir HasTable
  split <;> simp [*]

theorem pteOf_of_hasTable {mem : Memory} {pgdir : Frame} {va : Nat}
    (table : HasTable mem pgdir va) :
    pteOf mem pgdir va =
      some (entry mem (pteAddr (entry mem pgdir (pdx va))) (ptx va)) := by
  unfold HasTable at table
  simp [pteOf, walkpgdir, table]

theorem UserMapped.hasTable {mem : Memory} {pgdir : Frame} {va : Nat}
    (mapped : UserMapped mem pgdir va) : HasTable mem pgdir va := by
  obtain ⟨pte, found, _⟩ := mapped
  by_contra missing
  rw [pteOf_eq_none.mpr missing] at found
  cases found

/-- Addresses of one page have the same entry. -/
theorem pteOf_congr {mem : Memory} {pgdir : Frame} {va vb : Nat}
    (same : va / 4096 = vb / 4096) : pteOf mem pgdir va = pteOf mem pgdir vb := by
  have sameIndex : pdx va = pdx vb := by
    unfold pdx
    omega
  have sameTable : ptx va = ptx vb := by
    unfold ptx
    omega
  unfold pteOf walkpgdir
  rw [sameIndex, sameTable]

theorem userMapped_congr {mem : Memory} {pgdir : Frame} {va vb : Nat}
    (same : va / 4096 = vb / 4096) :
    UserMapped mem pgdir va ↔ UserMapped mem pgdir vb := by
  unfold UserMapped
  rw [pteOf_congr same]

theorem hasTable_congr {mem : Memory} {pgdir : Frame} {va vb : Nat}
    (same : va / 4096 = vb / 4096) :
    HasTable mem pgdir va ↔ HasTable mem pgdir vb := by
  have sameIndex : pdx va = pdx vb := by
    unfold pdx
    omega
  unfold HasTable
  rw [sameIndex]

/-- Memories with the same directory and tables translate alike. -/
structure SameTables (mem mem' : Memory) (pgdir : Frame) : Prop where
  frames : ∀ f, IsTableFrame mem pgdir f → mem' f = mem f

namespace SameTables

variable {mem mem' : Memory} {pgdir : Frame}

theorem refl (mem : Memory) (pgdir : Frame) : SameTables mem mem pgdir :=
  ⟨fun _ _ => rfl⟩

theorem directory (same : SameTables mem mem' pgdir) (i : Nat) :
    entry mem' pgdir i = entry mem pgdir i := by
  unfold entry
  rw [same.frames pgdir (.inl rfl)]

theorem pteOf (same : SameTables mem mem' pgdir) (va : Nat) :
    pteOf mem' pgdir va = pteOf mem pgdir va := by
  unfold Xv6.pteOf walkpgdir
  rw [same.directory]
  split
  · rename_i present
    have sameTable := same.frames _ (.inr ⟨_, present, rfl⟩)
    simp only [Option.map_some, Option.some.injEq]
    conv_lhs => rw [entry, sameTable]
    rfl
  · rfl

theorem hasTable (same : SameTables mem mem' pgdir) (va : Nat) :
    HasTable mem' pgdir va ↔ HasTable mem pgdir va := by
  unfold HasTable
  rw [same.directory]

/-- Writing another frame keeps the tables. -/
theorem update (same : SameTables mem mem' pgdir) {f : Frame} {page : Page}
    (other : ¬ IsTableFrame mem pgdir f) :
    SameTables mem (Function.update mem' f page) pgdir := by
  refine ⟨fun f' isTable => ?_⟩
  have apart : f' ≠ f := by
    rintro rfl
    exact other isTable
  rw [Function.update_of_ne apart]
  exact same.frames f' isTable

end SameTables

end Xv6
