import Xv6.TransmitRing

/-!
# The buffers of the descriptors

`i8254_init_send` and `i8254_init_recv` allocate a page for two descriptors in each
of 128 turns.  Turn `i` writes the descriptors `i` and `i + 1`, so the next turn
overwrites the second half, and the descriptors from 129 on are never reached.  They
keep what `kfree` left in the page of the table.
-/

namespace Xv6.Nic

/-- The fields of `struct i8254_recv_desc`. -/
inductive RecvField where
  | bufAddr
  | padding
  | len
  | chkSum
  | status
  | errors
  | special

def RecvField.offset : RecvField → Nat
  | bufAddr => 0
  | padding => 4
  | len => 8
  | chkSum => 10
  | status => 12
  | errors => 13
  | special => 14

/-- The address of a field of the receive descriptor at an index. -/
def recvFieldAddr (table : UInt32) (index : Nat) (field : RecvField) : UInt32 :=
  table + UInt32.ofNat (descSize * index + field.offset)

/-- The body of the first loop of `i8254_init_recv`. -/
def clearRecvDesc (table : UInt32) (mem : Mem) (i : Nat) : Mem :=
  let mem := mem.store (recvFieldAddr table i .padding) (bytesOfWord 0)
  let mem := mem.store (recvFieldAddr table i .len) (bytesOfHalf 0)
  let mem := mem.store (recvFieldAddr table i .chkSum) (bytesOfHalf 0)
  let mem := mem.store (recvFieldAddr table i .status) [0]
  let mem := mem.store (recvFieldAddr table i .errors) [0]
  mem.store (recvFieldAddr table i .special) (bytesOfHalf 0)

/-- `I8254_RECV_DESC_NUM` -/
abbrev recvDescNum : Nat := 256

/-- What `i8254_init_recv` leaves in memory.  `buf_addr` is the first field of both
descriptors, and the second loop is that of `i8254_init_send`. -/
def initRecv (mem : Mem) (recvDescAddr : UInt32)
    (kalloc : Fin (recvDescNum / 2) → UInt32) : Mem :=
  giveBuffers recvDescAddr
    ((List.range recvDescNum).foldl (clearRecvDesc recvDescAddr) mem) 0 (List.ofFn kalloc)

/-- `kfree` fills the page and links it to the free list. -/
def kfree (mem : Mem) (v freelist : UInt32) : Mem :=
  (mem.store v (List.replicate 4096 1)).store v (bytesOfWord freelist)

/-- A page that `kalloc` returns is as `kfree` left it. -/
def Fresh (mem : Mem) (page : UInt32) : Prop :=
  ∀ k < 4096, 4 ≤ k → mem (page + UInt32.ofNat k) = 1

/-- The `buf_addr` of the descriptor at an index of a table. -/
def bufAddrAt (mem : Mem) (table : UInt32) (index : Nat) : UInt32 :=
  mem.word (fieldAddr table index .bufAddr)

/-- The address is the lower or the upper half of one of the pages. -/
def IsHalf (pages : Fin 128 → UInt32) (addr : UInt32) : Prop :=
  ∃ k, addr = v2p (pages k) ∨ addr = v2p (pages k + 0x800)

/-- Every descriptor has a half of a page to itself. -/
def OwnBuffers (mem : Mem) (table : UInt32) (pages : Fin 128 → UInt32) : Prop :=
  (∀ index < 256, IsHalf pages (bufAddrAt mem table index)) ∧
    ∀ i < 256, ∀ j < 256, i ≠ j →
      Apart (bufAddrAt mem table i) 2048 (bufAddrAt mem table j) 2048

theorem fresh_kfree (mem : Mem) (v freelist : UInt32) : Fresh (kfree mem v freelist) v := by
  intro k inside beyond
  have outside : ∀ j < (bytesOfWord freelist).length,
      v + UInt32.ofNat j ≠ v + UInt32.ofNat k := by
    intro j isByte
    have length : (bytesOfWord freelist).length = 4 := rfl
    exact tableAddr_ne v (by omega) inside (by omega)
  have length : (List.replicate 4096 (1 : UInt8)).length = 4096 := List.length_replicate
  rw [kfree, Mem.store_of_apart _ outside, Mem.store_inside _ (by omega) (by omega),
    List.getElem_replicate]

/-! ## Clearing -/

/-- A store behind the address of a descriptor leaves the addresses of all. -/
theorem bufAddrAt_store (mem : Mem) (table : UInt32) {i index offset : Nat}
    {bytes : List UInt8} (turn : i < 256) (inside : index < 256) (behind : 4 ≤ offset)
    (fits : offset + bytes.length ≤ 16) :
    bufAddrAt (mem.store (table + UInt32.ofNat (16 * i + offset)) bytes) table index =
      bufAddrAt mem table index := by
  apply Mem.word_congr
  intro k small
  apply mem.store_of_apart
  intro l isByte
  have first : Field.bufAddr.offset = 0 := rfl
  rw [fieldAddr_add, UInt32.add_assoc, ← UInt32.ofNat_add]
  exact tableAddr_ne _ (by omega) (by omega) (by omega)

theorem bufAddrAt_clearDesc (mem : Mem) (table : UInt32) {i index : Nat} (turn : i < 256)
    (inside : index < 256) :
    bufAddrAt (clearDesc table mem i) table index = bufAddrAt mem table index := by
  unfold clearDesc fieldAddr
  dsimp only [Field.offset]
  rw [bufAddrAt_store _ _ turn inside (by decide) (by decide),
    bufAddrAt_store _ _ turn inside (by decide) (by decide),
    bufAddrAt_store _ _ turn inside (by decide) (by decide),
    bufAddrAt_store _ _ turn inside (by decide) (by decide),
    bufAddrAt_store _ _ turn inside (by decide) (by decide),
    bufAddrAt_store _ _ turn inside (by decide) (by decide),
    bufAddrAt_store _ _ turn inside (by decide) (by decide)]

theorem bufAddrAt_clearRecvDesc (mem : Mem) (table : UInt32) {i index : Nat}
    (turn : i < 256) (inside : index < 256) :
    bufAddrAt (clearRecvDesc table mem i) table index = bufAddrAt mem table index := by
  unfold clearRecvDesc recvFieldAddr
  dsimp only [RecvField.offset]
  rw [bufAddrAt_store _ _ turn inside (by decide) (by decide),
    bufAddrAt_store _ _ turn inside (by decide) (by decide),
    bufAddrAt_store _ _ turn inside (by decide) (by decide),
    bufAddrAt_store _ _ turn inside (by decide) (by decide),
    bufAddrAt_store _ _ turn inside (by decide) (by decide),
    bufAddrAt_store _ _ turn inside (by decide) (by decide)]

/-- A loop over descriptors that keeps every address in each turn keeps them all. -/
theorem bufAddrAt_foldl {table : UInt32} {index : Nat} {clear : Mem → Nat → Mem}
    (kept : ∀ mem, ∀ i < 256,
      bufAddrAt (clear mem i) table index = bufAddrAt mem table index)
    (turns : List Nat) (inside : ∀ i ∈ turns, i < 256) (mem : Mem) :
    bufAddrAt (turns.foldl clear mem) table index = bufAddrAt mem table index := by
  induction turns generalizing mem with
  | nil => rfl
  | cons i rest ih =>
      obtain ⟨first, others⟩ := List.forall_mem_cons.mp inside
      rw [List.foldl_cons, ih others, kept mem i first]

/-! ## Giving buffers -/

/-- The descriptors beyond the last turn keep their addresses. -/
theorem giveBuffers_beyond (table : UInt32) (mem : Mem) {i index : Nat}
    (pages : List UInt32) (beyond : i + pages.length < index) (inside : index < 256) :
    bufAddrAt (giveBuffers table mem i pages) table index = bufAddrAt mem table index := by
  induction pages generalizing mem i with
  | nil => rfl
  | cons page rest ih =>
      rw [List.length_cons] at beyond
      unfold giveBuffers
      split_ifs
      · rfl
      · rw [ih _ (by omega)]
        unfold bufAddrAt
        rw [Ring.word_store_other _ _ _ (by omega) (by omega) inside,
          Ring.word_store_other _ _ _ (by omega) (by omega) inside]

/-- Only the last page gives its second half to a descriptor. -/
theorem giveBuffers_last (table : UInt32) (mem : Mem) {i : Nat} (pages : List UInt32)
    (page : UInt32) (room : i + pages.length + 1 < 256)
    (allocated : ∀ other ∈ pages, other ≠ 0) (last : page ≠ 0) :
    bufAddrAt (giveBuffers table mem i (pages ++ [page])) table (i + pages.length + 1) =
      v2p (page + 0x800) := by
  induction pages generalizing mem i with
  | nil =>
      rw [List.nil_append]
      unfold giveBuffers bufAddrAt
      rw [if_neg last]
      exact Ring.word_store_word _ _ _
  | cons other rest ih =>
      obtain ⟨first, others⟩ := List.forall_mem_cons.mp allocated
      rw [List.length_cons] at room
      rw [List.cons_append]
      unfold giveBuffers
      rw [if_neg first, List.length_cons, ← Nat.add_assoc, Nat.add_right_comm i]
      exact ih _ (by omega) others

/-- What the two initialisations leave in a table: the first 128 descriptors have the
first half of a page each, the next one has the second half of the last page, and the
others still have the address that was there before. -/
theorem bufAddrAt_giveBuffers (mem : Mem) (table : UInt32) {pages : Fin 128 → UInt32}
    (allocated : ∀ k, pages k ≠ 0) :
    (∀ k : Fin 128,
      bufAddrAt (giveBuffers table mem 0 (List.ofFn pages)) table k = v2p (pages k)) ∧
    bufAddrAt (giveBuffers table mem 0 (List.ofFn pages)) table 128 =
      v2p (pages (Fin.last 127) + 0x800) ∧
    ∀ index < 256, 128 < index →
      bufAddrAt (giveBuffers table mem 0 (List.ofFn pages)) table index =
        bufAddrAt mem table index := by
  have length : (List.ofFn pages).length = 128 := List.length_ofFn
  have nonzero : ∀ page ∈ List.ofFn pages, page ≠ 0 := by
    intro page isHere
    obtain ⟨k, rfl⟩ := List.mem_ofFn.mp isHere
    exact allocated k
  refine ⟨fun k => ?_, ?_, fun index inside beyond => ?_⟩
  · have given := Ring.giveBuffers_at table mem (i := 0) (k := k) (List.ofFn pages)
      (by omega) nonzero (by omega)
    rw [Nat.zero_add, List.getElem_ofFn] at given
    exact given
  · rw [List.ofFn_succ_last] at nonzero ⊢
    rw [List.forall_mem_append] at nonzero
    have given := giveBuffers_last table mem (i := 0)
      (List.ofFn fun k : Fin 127 => pages k.castSucc) (pages (Fin.last 127))
      (by rw [List.length_ofFn]; decide) nonzero.1 (allocated _)
    rw [List.length_ofFn] at given
    exact given
  · exact giveBuffers_beyond table mem _ (by omega) inside

/-! ## No ring has a buffer for every descriptor -/

theorem bufAddrAt_fresh {mem : Mem} {table : UInt32} (fresh : Fresh mem table) {index : Nat}
    (positive : 0 < index) (inside : index < 256) :
    bufAddrAt mem table index = 0x01010101 := by
  have byte (k : Nat) (isByte : k < 4) :
      mem (fieldAddr table index .bufAddr + UInt32.ofNat k) = 1 := by
    have first : Field.bufAddr.offset = 0 := rfl
    rw [fieldAddr_add]
    exact fresh _ (by omega) (by omega)
  have zeroth : mem (fieldAddr table index .bufAddr + 0) = 1 := byte 0 (by decide)
  have first : mem (fieldAddr table index .bufAddr + 1) = 1 := byte 1 (by decide)
  have second : mem (fieldAddr table index .bufAddr + 2) = 1 := byte 2 (by decide)
  have third : mem (fieldAddr table index .bufAddr + 3) = 1 := byte 3 (by decide)
  rw [UInt32.add_zero] at zeroth
  rw [bufAddrAt, Mem.word, zeroth, first, second, third]
  rfl

/-- The junk of `kfree` is not the address of half a page. -/
theorem not_isHalf_junk {pages : Fin 128 → UInt32}
    (aligned : ∀ k, (pages k).toNat % 4096 = 0) : ¬IsHalf pages 0x01010101 := by
  rintro ⟨k, same⟩
  have page := aligned k
  have base : kernbase.toNat = 2147483648 := rfl
  have half : (0x800 : UInt32).toNat = 2048 := rfl
  rcases same with same | same
  · have addresses := congrArg UInt32.toNat same
    rw [v2p, UInt32.toNat_sub, base] at addresses
    have junk : (0x01010101 : UInt32).toNat = 16843009 := rfl
    omega
  · have addresses := congrArg UInt32.toNat same
    rw [v2p, UInt32.toNat_sub, UInt32.toNat_add, base, half] at addresses
    have junk : (0x01010101 : UInt32).toNat = 16843009 := rfl
    omega

/-- A table whose last address was never written has a descriptor without a buffer. -/
theorem not_ownBuffers {mem mem' : Mem} {table : UInt32} {pages : Fin 128 → UInt32}
    (fresh : Fresh mem table) (aligned : ∀ k, (pages k).toNat % 4096 = 0)
    (kept : bufAddrAt mem' table 255 = bufAddrAt mem table 255) :
    ¬OwnBuffers mem' table pages := by
  rintro ⟨halves, -⟩
  have half := halves 255 (by decide)
  rw [kept, bufAddrAt_fresh fresh (by decide) (by decide)] at half
  exact not_isHalf_junk aligned half

theorem bufAddrAt_initSend_beyond (mem : Mem) (table : UInt32) (pages : Fin 128 → UInt32)
    {index : Nat} (beyond : 128 < index) (inside : index < 256) :
    bufAddrAt (initSend mem table pages).mem table index = bufAddrAt mem table index := by
  have length : (List.ofFn pages).length = 128 := List.length_ofFn
  rw [initSend, giveBuffers_beyond _ _ _ (by omega) inside]
  exact bufAddrAt_foldl (fun mem i turn => bufAddrAt_clearDesc mem table turn inside) _
    (fun _ isTurn => List.mem_range.mp isTurn) mem

theorem bufAddrAt_initRecv_beyond (mem : Mem) (table : UInt32) (pages : Fin 128 → UInt32)
    {index : Nat} (beyond : 128 < index) (inside : index < 256) :
    bufAddrAt (initRecv mem table pages) table index = bufAddrAt mem table index := by
  have length : (List.ofFn pages).length = 128 := List.length_ofFn
  rw [initRecv, giveBuffers_beyond _ _ _ (by omega) inside]
  exact bufAddrAt_foldl (fun mem i turn => bufAddrAt_clearRecvDesc mem table turn inside) _
    (fun _ isTurn => List.mem_range.mp isTurn) mem

/-- Whatever pages `kalloc` returns, neither ring has a buffer for every descriptor. -/
theorem rings_lackBuffers {mem : Mem} {table : UInt32} {pages : Fin 128 → UInt32}
    (fresh : Fresh mem table) (aligned : ∀ k, (pages k).toNat % 4096 = 0) :
    ¬OwnBuffers (initSend mem table pages).mem table pages ∧
      ¬OwnBuffers (initRecv mem table pages) table pages :=
  ⟨not_ownBuffers fresh aligned
      (bufAddrAt_initSend_beyond mem table pages (by decide) (by decide)),
    not_ownBuffers fresh aligned
      (bufAddrAt_initRecv_beyond mem table pages (by decide) (by decide))⟩

theorem aligned_bootPages (k : Fin 128) : (Ring.bootPages k).toNat % 4096 = 0 := by
  have start : (0x8dffd000 : UInt32).toNat = 2382352384 := rfl
  have inside := k.isLt
  rw [Ring.bootPages, UInt32.toNat_sub, UInt32.toNat_ofNat', start]
  omega

/-- The rings of a machine whose allocator hands out pages downwards. -/
theorem bootRings_lackBuffers :
    ¬OwnBuffers (initSend (kfree (fun _ => 0) 0x8dffe000 0x8dffd000) 0x8dffe000 Ring.bootPages).mem
        0x8dffe000 Ring.bootPages ∧
      ¬OwnBuffers (initRecv (kfree (fun _ => 0) 0x8dffe000 0x8dffd000) 0x8dffe000 Ring.bootPages)
        0x8dffe000 Ring.bootPages :=
  rings_lackBuffers (fresh_kfree _ _ _) aligned_bootPages

/-- The 130th descriptor of both rings has the address 0x01010101 there. -/
theorem bootRings_junk :
    bufAddrAt (initSend (kfree (fun _ => 0) 0x8dffe000 0x8dffd000) 0x8dffe000 Ring.bootPages).mem
        0x8dffe000 129 = 0x01010101 ∧
      bufAddrAt (initRecv (kfree (fun _ => 0) 0x8dffe000 0x8dffd000) 0x8dffe000 Ring.bootPages)
        0x8dffe000 129 = 0x01010101 ∧ ¬IsHalf Ring.bootPages 0x01010101 := by
  refine ⟨?_, ?_, not_isHalf_junk aligned_bootPages⟩
  · rw [bufAddrAt_initSend_beyond _ _ _ (by decide) (by decide)]
    exact bufAddrAt_fresh (fresh_kfree _ _ _) (by decide) (by decide)
  · rw [bufAddrAt_initRecv_beyond _ _ _ (by decide) (by decide)]
    exact bufAddrAt_fresh (fresh_kfree _ _ _) (by decide) (by decide)

end Xv6.Nic
