import Xv6.ByteFields

/-!
# User-mode machine states

The registers and memory a user program sees, the stack instructions that
`thread_switch` and C calls use, and `thread_switch` itself, instruction by
instruction.
-/

namespace Xv6

open ByteFields

abbrev Word := BitVec 32

/-- The 4 GB a process addresses. -/
abbrev UserMemory := Bytes (2 ^ 32)

/-- The general-purpose registers, `eip`, `eflags` and the user memory. -/
structure Machine where
  eax : Word
  ecx : Word
  edx : Word
  ebx : Word
  esp : Word
  ebp : Word
  esi : Word
  edi : Word
  eip : Word
  eflags : Word
  mem : UserMemory

def load (mem : UserMemory) (address : Word) : Word :=
  BitVec.ofNat 32 (getWord mem address.toNat)

def store (mem : UserMemory) (address value : Word) : UserMemory :=
  setWord mem address.toNat value.toNat

/-- The word at `address` does not wrap around the address space. -/
def WordFits (address : Word) : Prop := address.toNat + 4 ≤ 2 ^ 32

/-- Two words share no byte. -/
def WordsApart (first second : Word) : Prop :=
  first.toNat + 4 ≤ second.toNat ∨ second.toNat + 4 ≤ first.toNat

theorem toNat_add_four (address : Word)
    (fits : address.toNat + 4 < 2 ^ 32) :
    (address + 4).toNat = address.toNat + 4 := by
  bv_omega

theorem load_store (mem : UserMemory) {address : Word} (value : Word)
    (fits : WordFits address) :
    load (store mem address value) address = value := by
  unfold load store
  rw [getWord_setWord _ _ fits]
  apply BitVec.eq_of_toNat_eq
  rw [BitVec.toNat_ofNat, Nat.mod_mod]
  exact Nat.mod_eq_of_lt value.isLt

theorem load_store_of_apart (mem : UserMemory) {address other : Word}
    (value : Word) (fits : WordFits address)
    (apart : WordsApart other address) :
    load (store mem address value) other = load mem other := by
  unfold load store
  rw [getWord_setWord_of_disjoint _ _ fits apart]

theorem getByte_store_of_outside (mem : UserMemory) {address : Word}
    (value : Word) {at' : Nat} (fits : WordFits address)
    (outside : at' < address.toNat ∨ address.toNat + 4 ≤ at') :
    getByte (store mem address value) at' = getByte mem at' :=
  getByte_setWord_of_outside mem _ fits outside

theorem load_congr {first second : UserMemory} {address : Word}
    (same : ∀ k, address.toNat ≤ k → k < address.toNat + 4 →
      getByte first k = getByte second k) :
    load first address = load second address := by
  unfold load
  rw [getWord_congr same]

namespace Machine

/-- `pushl` -/
def push (m : Machine) (value : Word) : Machine :=
  { m with esp := m.esp - 4, mem := store m.mem (m.esp - 4) value }

/-- The word that `popl` and `ret` take from the stack. -/
def topOfStack (m : Machine) : Word := load m.mem m.esp

/-- `ret` -/
def ret (m : Machine) : Machine :=
  { m with eip := m.topOfStack, esp := m.esp + 4 }

def popEdi (m : Machine) : Machine :=
  { m with edi := m.topOfStack, esp := m.esp + 4 }

def popEsi (m : Machine) : Machine :=
  { m with esi := m.topOfStack, esp := m.esp + 4 }

def popEbx (m : Machine) : Machine :=
  { m with ebx := m.topOfStack, esp := m.esp + 4 }

def popEbp (m : Machine) : Machine :=
  { m with ebp := m.topOfStack, esp := m.esp + 4 }

/-- The machine after `pushl %ebp`, `pushl %ebx`, `pushl %esi`, `pushl %edi`. -/
def pushCalleeSaved (m : Machine) : Machine :=
  (((m.push m.ebp).push m.ebx).push m.esi).push m.edi

/-- The machine after `popl %edi`, `popl %esi`, `popl %ebx`, `popl %ebp`,
`ret`. -/
def popCalleeSavedRet (m : Machine) : Machine :=
  m.popEdi.popEsi.popEbx.popEbp.ret

/-- `movl %esp, (current_thread)` through `%eax`, where `current` is the
address of the variable `current_thread` and `sp` is the first field. -/
def saveSp (current : Word) (m : Machine) : Machine :=
  { m with eax := load m.mem current
           mem := store m.mem (load m.mem current) m.esp }

/-- `current_thread = next_thread` through `%eax`, then `movl (%eax), %esp`. -/
def loadSp (current next : Word) (m : Machine) : Machine :=
  let eax := load m.mem next
  let mem := store m.mem current eax
  { m with eax := eax, mem := mem, esp := load mem eax }

/-- `thread_switch`, from the first `pushl` to the `ret`. -/
def threadSwitch (current next : Word) (m : Machine) : Machine :=
  (loadSp current next (saveSp current m.pushCalleeSaved)).popCalleeSavedRet

theorem push_esp_toNat {m : Machine} (value : Word)
    (room : 4 ≤ m.esp.toNat) : (m.push value).esp.toNat = m.esp.toNat - 4 := by
  simp only [push]
  bv_omega

theorem push_mem_of_outside {m : Machine} (value : Word) {k : Nat}
    (room : 4 ≤ m.esp.toNat)
    (outside : k < m.esp.toNat - 4 ∨ m.esp.toNat ≤ k) :
    getByte (m.push value).mem k = getByte m.mem k := by
  have lower : (m.esp - 4).toNat = m.esp.toNat - 4 := push_esp_toNat value room
  refine getByte_store_of_outside m.mem value ?_ ?_
  · have := m.esp.isLt
    unfold WordFits
    omega
  · omega

/-- The pushed word is on top of the stack. -/
theorem push_topOfStack {m : Machine} (value : Word)
    (room : 4 ≤ m.esp.toNat) : (m.push value).topOfStack = value := by
  have lower : (m.esp - 4).toNat = m.esp.toNat - 4 := push_esp_toNat value room
  refine load_store m.mem value ?_
  have := m.esp.isLt
  unfold WordFits
  omega

/-- The five words that `thread_switch` leaves on the stack of a thread it
switches away from: the saved registers and the return address. -/
structure SavedAt (mem : UserMemory) (sp : Word) (m : Machine) : Prop where
  edi : load mem sp = m.edi
  esi : load mem (sp + 4) = m.esi
  ebx : load mem (sp + 4 + 4) = m.ebx
  ebp : load mem (sp + 4 + 4 + 4) = m.ebp
  eip : load mem (sp + 4 + 4 + 4 + 4) = m.topOfStack

theorem pushCalleeSaved_esp_toNat {m : Machine} (room : 16 ≤ m.esp.toNat) :
    m.pushCalleeSaved.esp.toNat = m.esp.toNat - 16 := by
  simp only [pushCalleeSaved, push]
  bv_omega

theorem pushCalleeSaved_esp_add (m : Machine) :
    m.pushCalleeSaved.esp + 4 + 4 + 4 + 4 = m.esp := by
  simp only [pushCalleeSaved, push]
  rw [BitVec.sub_add_cancel, BitVec.sub_add_cancel, BitVec.sub_add_cancel,
    BitVec.sub_add_cancel]

theorem pushCalleeSaved_mem_of_outside {m : Machine} {k : Nat}
    (room : 16 ≤ m.esp.toNat)
    (outside : k < m.esp.toNat - 16 ∨ m.esp.toNat ≤ k) :
    getByte m.pushCalleeSaved.mem k = getByte m.mem k := by
  have first := push_esp_toNat (m := m) m.ebp (by omega)
  have second := push_esp_toNat (m := m.push m.ebp) m.ebx (by omega)
  have third := push_esp_toNat (m := (m.push m.ebp).push m.ebx) m.esi (by omega)
  unfold pushCalleeSaved
  rw [push_mem_of_outside _ (by omega) (by omega),
    push_mem_of_outside _ (by omega) (by omega),
    push_mem_of_outside _ (by omega) (by omega),
    push_mem_of_outside _ (by omega) (by omega)]

/-- A push leaves the words above the stack pointer. -/
theorem push_load_above {m : Machine} (value : Word) {address : Word}
    (room : 4 ≤ m.esp.toNat) (above : m.esp.toNat ≤ address.toNat) :
    load (m.push value).mem address = load m.mem address :=
  load_congr fun _ low _ =>
    push_mem_of_outside value room (.inr (above.trans low))

theorem pushCalleeSaved_savedAt {m : Machine} (room : 16 ≤ m.esp.toNat) :
    SavedAt m.pushCalleeSaved.mem m.pushCalleeSaved.esp m := by
  let m1 := m.push m.ebp
  let m2 := m1.push m.ebx
  let m3 := m2.push m.esi
  let m4 := m3.push m.edi
  have esp1 : m1.esp.toNat = m.esp.toNat - 4 :=
    push_esp_toNat m.ebp (by omega)
  have esp2 : m2.esp.toNat = m1.esp.toNat - 4 :=
    push_esp_toNat m.ebx (by omega)
  have esp3 : m3.esp.toNat = m2.esp.toNat - 4 :=
    push_esp_toNat m.esi (by omega)
  have back4 : m4.esp + 4 = m3.esp := BitVec.sub_add_cancel _ _
  have back3 : m3.esp + 4 = m2.esp := BitVec.sub_add_cancel _ _
  have back2 : m2.esp + 4 = m1.esp := BitVec.sub_add_cancel _ _
  have back1 : m1.esp + 4 = m.esp := BitVec.sub_add_cancel _ _
  have above4 {address : Word} (above : m3.esp.toNat ≤ address.toNat) :
      load m4.mem address = load m3.mem address :=
    push_load_above _ (by omega) above
  have above3 {address : Word} (above : m2.esp.toNat ≤ address.toNat) :
      load m3.mem address = load m2.mem address :=
    push_load_above _ (by omega) above
  have above2 {address : Word} (above : m1.esp.toNat ≤ address.toNat) :
      load m2.mem address = load m1.mem address :=
    push_load_above _ (by omega) above
  have above1 {address : Word} (above : m.esp.toNat ≤ address.toNat) :
      load m1.mem address = load m.mem address :=
    push_load_above _ (by omega) above
  change SavedAt m4.mem m4.esp m
  refine ⟨push_topOfStack m.edi (by omega), ?_, ?_, ?_, ?_⟩
  · rw [back4, above4 le_rfl]
    exact push_topOfStack m.esi (by omega)
  · rw [back4, back3, above4 (by omega), above3 le_rfl]
    exact push_topOfStack m.ebx (by omega)
  · rw [back4, back3, back2, above4 (by omega), above3 (by omega),
      above2 le_rfl]
    exact push_topOfStack m.ebp (by omega)
  · rw [back4, back3, back2, back1, above4 (by omega), above3 (by omega),
      above2 (by omega), above1 le_rfl]
    rfl

end Machine

end Xv6
