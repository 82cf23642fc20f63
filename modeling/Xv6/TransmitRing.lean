import Mathlib.Algebra.GroupWithZero.Nat
import Mathlib.Data.List.Basic
import Xv6.LabelledRuns

/-!
# The transmit ring of the network card

The driver keeps a table of 256 send descriptors in one page.  `i8254_send`
copies a packet to the buffer of descriptor `tdt`, fills in the descriptor and
advances `tdt`; the card transmits descriptor `tdh` and advances `tdh`.  The
free places are counted as 256 less the occupied ones, so that the check for a
free place never fails and the 256th waiting packet makes a full ring look
empty.  The initialisation gives buffers to at most 129 descriptors; the others
keep whatever address the page held before.
-/

namespace Xv6.Nic

/-- Bytes at kernel virtual addresses. -/
abbrev Mem := UInt32 → UInt8

abbrev Packet := List UInt8

def Mem.store (mem : Mem) (addr : UInt32) (bytes : List UInt8) : Mem :=
  fun a => (bytes[(a - addr).toNat]?).getD (mem a)

def Mem.load (mem : Mem) (addr : UInt32) (n : Nat) : List UInt8 :=
  (List.range n).map fun k => mem (addr + UInt32.ofNat k)

/-- Two ranges of addresses without a common address. -/
def Apart (a : UInt32) (n : Nat) (b : UInt32) (m : Nat) : Prop :=
  ∀ j < n, ∀ k < m, a + UInt32.ofNat j ≠ b + UInt32.ofNat k

instance (a : UInt32) (n : Nat) (b : UInt32) (m : Nat) : Decidable (Apart a n b m) :=
  inferInstanceAs (Decidable (∀ j < n, ∀ k < m, _))

/-- The low two bytes of a number, the lowest first. -/
def bytesOfHalf (value : Nat) : List UInt8 :=
  [UInt8.ofNat value, UInt8.ofNat (value / 256)]

/-- The four bytes of a word, the lowest first. -/
def bytesOfWord (value : UInt32) : List UInt8 :=
  [UInt8.ofNat value.toNat, UInt8.ofNat (value.toNat / 256),
    UInt8.ofNat (value.toNat / 65536), UInt8.ofNat (value.toNat / 16777216)]

def Mem.half (mem : Mem) (addr : UInt32) : Nat :=
  (mem addr).toNat + 256 * (mem (addr + 1)).toNat

def Mem.word (mem : Mem) (addr : UInt32) : UInt32 :=
  UInt32.ofNat ((mem addr).toNat + 256 * (mem (addr + 1)).toNat +
    65536 * (mem (addr + 2)).toNat + 16777216 * (mem (addr + 3)).toNat)

abbrev kernbase : UInt32 := 0x80000000

def v2p (a : UInt32) : UInt32 := a - kernbase

def p2v (a : UInt32) : UInt32 := a + kernbase

abbrev sendDescNum : Nat := 256

/-- The fields of `struct i8254_send_desc`. -/
inductive Field where
  | bufAddr
  | padding
  | len
  | cso
  | cmd
  | sta
  | css
  | special

def Field.offset : Field → Nat
  | bufAddr => 0
  | padding => 4
  | len => 8
  | cso => 10
  | cmd => 11
  | sta => 12
  | css => 13
  | special => 14

/-- The size of a descriptor. -/
abbrev descSize : Nat := 16

/-- The address of a field of the descriptor at an index. -/
def fieldAddr (table : UInt32) (index : Nat) (field : Field) : UInt32 :=
  table + UInt32.ofNat (descSize * index + field.offset)

/-- The body of the first loop of `i8254_init_send`. -/
def clearDesc (table : UInt32) (mem : Mem) (i : Nat) : Mem :=
  let mem := mem.store (fieldAddr table i .padding) (bytesOfWord 0)
  let mem := mem.store (fieldAddr table i .len) (bytesOfHalf 0)
  let mem := mem.store (fieldAddr table i .cso) [0]
  let mem := mem.store (fieldAddr table i .cmd) [0]
  let mem := mem.store (fieldAddr table i .sta) [0]
  let mem := mem.store (fieldAddr table i .css) [0]
  mem.store (fieldAddr table i .special) (bytesOfHalf 0)

/-- The second loop of `i8254_init_send`, from index `i` on, given what `kalloc`
returns in each turn; it stops at a failed allocation. -/
def giveBuffers (table : UInt32) : Mem → Nat → List UInt32 → Mem
  | mem, _, [] => mem
  | mem, i, bufAddr :: rest =>
      if bufAddr = 0 then mem
      else
        let mem := mem.store (fieldAddr table i .bufAddr) (bytesOfWord (v2p bufAddr))
        let mem := mem.store (fieldAddr table (i + 1) .bufAddr)
          (bytesOfWord (v2p (bufAddr + 0x800)))
        giveBuffers table mem (i + 1) rest

/-- Where `i8254_send` stands: not running, past the check, past the copy of the
packet, or past the stores to the descriptor. -/
inductive Progress where
  | idle
  | checked (index : Nat) (packet : Packet)
  | copied (index : Nat) (packet : Packet)
  | filled (index : Nat) (packet : Packet)
  deriving DecidableEq

/-- Memory, the registers of the card, where the driver stands, the packets for
which `i8254_send` returned their length and those that the card transmitted. -/
structure Ring where
  mem : Mem
  table : UInt32
  tdh : Nat
  tdt : Nat
  progress : Progress
  accepted : List Packet
  wire : List Packet

/-- What `i8254_init_send` leaves, for the page of the table, the 128 results of
`kalloc` and the contents of memory before. -/
def initSend (mem : Mem) (txDescAddr : UInt32) (kalloc : Fin (sendDescNum / 2) → UInt32) :
    Ring where
  mem := giveBuffers txDescAddr
    ((List.range sendDescNum).foldl (clearDesc txDescAddr) mem) 0 (List.ofFn kalloc)
  table := txDescAddr
  tdh := 0
  tdt := 0
  progress := .idle
  accepted := []
  wire := []

namespace Ring

def bufAddr (s : Ring) (index : Nat) : UInt32 :=
  s.mem.word (fieldAddr s.table index .bufAddr)

def len (s : Ring) (index : Nat) : Nat :=
  s.mem.half (fieldAddr s.table index .len)

/-- The packet that a descriptor describes. -/
def content (s : Ring) (index : Nat) : Packet :=
  s.mem.load (p2v (s.bufAddr index)) (s.len index)

/-- The local `tx_available` of `i8254_send`, in unsigned arithmetic. -/
def txAvailable (s : Ring) : Int :=
  sendDescNum - ((sendDescNum + 2 ^ 32 - s.tdh + s.tdt) % 2 ^ 32 % sendDescNum : Nat)

/-- The stores to the fields of the descriptor. -/
def fillDesc (s : Ring) (index : Nat) (packet : Packet) : Mem :=
  let mem := s.mem.store (fieldAddr s.table index .len)
    (bytesOfHalf packet.length)
  let mem := mem.store (fieldAddr s.table index .sta) [0]
  let mem := mem.store (fieldAddr s.table index .css) [0]
  let mem := mem.store (fieldAddr s.table index .cmd) [0xb]
  let mem := mem.store (fieldAddr s.table index .special) (bytesOfHalf 0)
  mem.store (fieldAddr s.table index .cso) [0]

end Ring

/-- `call` enters `i8254_send` with a packet and makes its check, `go` takes it
to its next store, and `transmit` is one advance of the card. -/
inductive Label where
  | call (packet : Packet)
  | go
  | transmit

namespace Ring

/-- One step of the driver or of the card.  The length of a packet is a `uint`.
A refused call returns at once. -/
def step (s : Ring) : Label → Option Ring
  | .call packet =>
      if s.progress = .idle ∧ packet.length < 2 ^ 32 then
        if s.txAvailable > 0 then
          some { s with progress := .checked (s.tdt % sendDescNum) packet }
        else some s
      else none
  | .go =>
      match s.progress with
      | .idle => none
      | .checked index packet =>
          some { s with
            mem := s.mem.store (p2v (s.bufAddr index)) packet
            progress := .copied index packet }
      | .copied index packet =>
          some { s with
            mem := s.fillDesc index packet
            progress := .filled index packet }
      | .filled _ packet =>
          some { s with
            tdt := (s.tdt + 1) % sendDescNum
            accepted := s.accepted ++ [packet]
            progress := .idle }
  | .transmit =>
      if s.tdh = s.tdt then none
      else some { s with
        wire := s.wire ++ [s.content s.tdh]
        tdh := (s.tdh + 1) % sendDescNum }

/-- The descriptors from `tdh` up to but not including `tdt`. -/
def pending (s : Ring) : List Nat :=
  (List.range ((sendDescNum + s.tdt - s.tdh) % sendDescNum)).map
    fun k => (s.tdh + k) % sendDescNum

/-- The accepted packets are the transmitted ones followed by the contents of
the descriptors between the two registers. -/
def LosesNothing (s : Ring) : Prop :=
  s.accepted = s.wire ++ s.pending.map s.content

/-- A call finds room: another descriptor stays free, the length fits in its
field, and the buffer overlaps neither the table nor a packet that waits. -/
def Roomy (s : Ring) : Label → Prop
  | .call packet =>
      (s.tdt + 1) % sendDescNum ≠ s.tdh ∧ packet.length < 2 ^ 16 ∧
        Apart (p2v (s.bufAddr s.tdt)) packet.length s.table (descSize * sendDescNum) ∧
        ∀ index ∈ s.pending,
          Apart (p2v (s.bufAddr s.tdt)) packet.length
            (p2v (s.bufAddr index)) (s.len index)
  | .go | .transmit => True

instance (s : Ring) : (label : Label) → Decidable (s.Roomy label)
  | .call _ => inferInstanceAs (Decidable (_ ∧ _ ∧ _ ∧ _))
  | .go | .transmit => inferInstanceAs (Decidable True)

end Ring

/-! ## Stores and loads -/

theorem Mem.store_of_apart (mem : Mem) {addr x : UInt32} {bytes : List UInt8}
    (apart : ∀ j < bytes.length, addr + UInt32.ofNat j ≠ x) :
    mem.store addr bytes x = mem x := by
  have outside : bytes.length ≤ (x - addr).toNat := by
    by_contra inside
    refine apart (x - addr).toNat (by omega) ?_
    rw [UInt32.ofNat_toNat, UInt32.add_comm, UInt32.sub_add_cancel]
  rw [Mem.store, List.getElem?_eq_none outside, Option.getD_none]

theorem Mem.store_inside (mem : Mem) {addr : UInt32} {bytes : List UInt8} {j : Nat}
    (inside : j < bytes.length) (small : j < 2 ^ 32) :
    mem.store addr bytes (addr + UInt32.ofNat j) = bytes[j] := by
  have position : (addr + UInt32.ofNat j - addr).toNat = j := by
    rw [UInt32.add_comm, UInt32.add_sub_cancel, UInt32.toNat_ofNat',
      Nat.mod_eq_of_lt small]
  rw [Mem.store, position, List.getElem?_eq_getElem inside, Option.getD_some]

theorem Mem.load_store (mem : Mem) {addr : UInt32} {bytes : List UInt8}
    (small : bytes.length ≤ 2 ^ 32) :
    (mem.store addr bytes).load addr bytes.length = bytes := by
  apply List.ext_getElem
  · simp [Mem.load]
  · intro j before inside
    simp only [Mem.load, List.getElem_map, List.getElem_range]
    exact mem.store_inside inside (by omega)

theorem Mem.load_congr {mem mem' : Mem} {addr : UInt32} {n : Nat}
    (same : ∀ k < n, mem' (addr + UInt32.ofNat k) = mem (addr + UInt32.ofNat k)) :
    mem'.load addr n = mem.load addr n := by
  apply List.map_congr_left
  intro k member
  exact same k (List.mem_range.mp member)

theorem Mem.load_store_of_apart (mem : Mem) {addr addr' : UInt32} {bytes : List UInt8}
    {n : Nat} (apart : Apart addr bytes.length addr' n) :
    (mem.store addr bytes).load addr' n = mem.load addr' n :=
  Mem.load_congr fun k inside =>
    mem.store_of_apart fun j before => apart j before k inside

/-! ## The table -/

theorem tableAddr_ne (table : UInt32) {m n : Nat} (boundM : m < 4096) (boundN : n < 4096)
    (differ : m ≠ n) : table + UInt32.ofNat m ≠ table + UInt32.ofNat n := by
  intro same
  have offsets := congrArg UInt32.toNat ((UInt32.add_right_inj table).mp same)
  rw [UInt32.toNat_ofNat', UInt32.toNat_ofNat'] at offsets
  omega

theorem fieldAddr_add (table : UInt32) (index : Nat) (field : Field) (k : Nat) :
    fieldAddr table index field + UInt32.ofNat k =
      table + UInt32.ofNat (16 * index + field.offset + k) := by
  rw [fieldAddr, UInt32.add_assoc, UInt32.ofNat_add (16 * index + field.offset)]

theorem Mem.half_congr {mem mem' : Mem} {addr : UInt32}
    (same : ∀ k < 2, mem' (addr + UInt32.ofNat k) = mem (addr + UInt32.ofNat k)) :
    mem'.half addr = mem.half addr := by
  have first : mem' (addr + 0) = mem (addr + 0) := same 0 (by decide)
  have second : mem' (addr + 1) = mem (addr + 1) := same 1 (by decide)
  rw [UInt32.add_zero] at first
  rw [Mem.half, Mem.half, first, second]

theorem Mem.word_congr {mem mem' : Mem} {addr : UInt32}
    (same : ∀ k < 4, mem' (addr + UInt32.ofNat k) = mem (addr + UInt32.ofNat k)) :
    mem'.word addr = mem.word addr := by
  have first : mem' (addr + 0) = mem (addr + 0) := same 0 (by decide)
  have second : mem' (addr + 1) = mem (addr + 1) := same 1 (by decide)
  have third : mem' (addr + 2) = mem (addr + 2) := same 2 (by decide)
  have fourth : mem' (addr + 3) = mem (addr + 3) := same 3 (by decide)
  rw [UInt32.add_zero] at first
  rw [Mem.word, Mem.word, first, second, third, fourth]

namespace Ring

variable {s s' : Ring}

/-- The bytes of the table from one offset up to another are the same. -/
def SameTable (s s' : Ring) (lo hi : Nat) : Prop :=
  s'.table = s.table ∧ ∀ n, lo ≤ n → n < hi →
    s'.mem (s.table + UInt32.ofNat n) = s.mem (s.table + UInt32.ofNat n)

theorem bufAddr_congr (index : Nat)
    (same : SameTable s s' (16 * index) (16 * index + 4)) :
    s'.bufAddr index = s.bufAddr index := by
  rw [bufAddr, bufAddr, same.1]
  apply Mem.word_congr
  intro k small
  rw [fieldAddr_add]
  have offset : Field.bufAddr.offset = 0 := rfl
  exact same.2 _ (by omega) (by omega)

theorem len_congr (index : Nat)
    (same : SameTable s s' (16 * index + 8) (16 * index + 10)) :
    s'.len index = s.len index := by
  rw [len, len, same.1]
  apply Mem.half_congr
  intro k small
  rw [fieldAddr_add]
  have offset : Field.len.offset = 8 := rfl
  exact same.2 _ (by omega) (by omega)

theorem SameTable.mono {lo hi lo' hi' : Nat} (same : SameTable s s' lo hi)
    (low : lo ≤ lo') (high : hi' ≤ hi) : SameTable s s' lo' hi' :=
  ⟨same.1, fun n above below => same.2 n (by omega) (by omega)⟩

/-- Copying a packet to a buffer apart from the table leaves the table. -/
theorem sameTable_copy {addr : UInt32} {packet : Packet} {progress : Progress}
    (apart : Apart addr packet.length s.table 4096) :
    SameTable s { s with mem := s.mem.store addr packet, progress := progress } 0 4096 :=
  ⟨rfl, fun n _ below => s.mem.store_of_apart fun j before => apart j before n below⟩

/-- The stores to a descriptor change its last eight bytes only. -/
theorem fillDesc_of_outside {index : Nat} {packet : Packet} {x : UInt32}
    (outside : ∀ n, 16 * index + 8 ≤ n → n < 16 * index + 16 →
      s.table + UInt32.ofNat n ≠ x) :
    s.fillDesc index packet x = s.mem x := by
  have apart {field : Field} {bytes : List UInt8} (low : 8 ≤ field.offset)
      (high : field.offset + bytes.length ≤ 16) (mem : Mem) :
      mem.store (fieldAddr s.table index field) bytes x = mem x := by
    apply mem.store_of_apart
    intro j before
    rw [fieldAddr_add]
    exact outside _ (by omega) (by omega)
  simp only [fillDesc]
  rw [apart (by decide) (by decide), apart (by decide) (by decide),
    apart (by decide) (by decide), apart (by decide) (by decide),
    apart (by decide) (by decide), apart (by decide) (by simp [bytesOfHalf, Field.offset])]

theorem sameTable_fill {index : Nat} (packet : Packet) (progress : Progress) {lo hi : Nat}
    (bound : hi ≤ 4096) (inside : index < 256)
    (outside : hi ≤ 16 * index + 8 ∨ 16 * index + 16 ≤ lo) :
    SameTable s { s with mem := s.fillDesc index packet, progress := progress } lo hi := by
  refine ⟨rfl, fun n above below => fillDesc_of_outside fun m low high => ?_⟩
  exact tableAddr_ne _ (by omega) (by omega) (by omega)

theorem len_fill {index : Nat} {packet : Packet} {progress : Progress}
    (inside : index < 256) (fits : packet.length < 65536) :
    len { s with mem := s.fillDesc index packet, progress := progress } index =
      packet.length := by
  have kept {field : Field} {bytes : List UInt8} {k : Nat} (low : 10 ≤ field.offset)
      (high : field.offset + bytes.length ≤ 16) (small : k < 2) (mem : Mem) :
      mem.store (fieldAddr s.table index field) bytes
          (fieldAddr s.table index .len + UInt32.ofNat k) =
        mem (fieldAddr s.table index .len + UInt32.ofNat k) := by
    apply mem.store_of_apart
    intro j before
    rw [fieldAddr_add, fieldAddr_add]
    have offset : Field.len.offset = 8 := rfl
    exact tableAddr_ne _ (by omega) (by omega) (by omega)
  have stored {k : Nat} (small : k < 2) :
      s.fillDesc index packet (fieldAddr s.table index .len + UInt32.ofNat k) =
        (bytesOfHalf packet.length)[k] := by
    simp only [fillDesc]
    rw [kept (by decide) (by decide) small, kept (by decide) (by decide) small,
      kept (by decide) (by decide) small, kept (by decide) (by decide) small,
      kept (by decide) (by decide) small]
    exact s.mem.store_inside _ (by omega)
  have first : s.fillDesc index packet (fieldAddr s.table index .len + 0) =
      UInt8.ofNat packet.length := stored (k := 0) (by decide)
  have second : s.fillDesc index packet (fieldAddr s.table index .len + 1) =
      UInt8.ofNat (packet.length / 256) := stored (k := 1) (by decide)
  rw [UInt32.add_zero] at first
  simp only [len, Mem.half, first, second, UInt8.toNat_ofNat']
  omega

/-! ## The descriptors that wait -/

theorem lt_of_mem_pending {index : Nat} (waits : index ∈ s.pending) : index < 256 := by
  obtain ⟨k, -, rfl⟩ := List.mem_map.mp waits
  exact Nat.mod_lt _ (by decide)

theorem tdt_not_mem_pending : s.tdt ∉ s.pending := by
  intro waits
  obtain ⟨k, inside, same⟩ := List.mem_map.mp waits
  have before := List.mem_range.mp inside
  simp only [sendDescNum] at before same
  omega

/-- The descriptor at `tdh` is transmitted next. -/
theorem pending_cons (head : s.tdh < 256) (tail : s.tdt < 256) (differ : s.tdh ≠ s.tdt)
    (wire : List Packet) :
    s.pending = s.tdh ::
      pending { s with wire := wire, tdh := (s.tdh + 1) % sendDescNum } := by
  have count : (sendDescNum + s.tdt - s.tdh) % sendDescNum =
      (sendDescNum + s.tdt - (s.tdh + 1) % sendDescNum) % sendDescNum + 1 := by
    simp only [sendDescNum]
    omega
  simp only [pending, count, List.range_succ_eq_map, List.map_cons, List.map_map]
  congr 1
  · simp only [sendDescNum]
    omega
  · apply List.map_congr_left
    intro k _
    simp only [Function.comp_apply, sendDescNum]
    omega

/-- Advancing `tdt` adds the descriptor there, as long as another stays free. -/
theorem pending_append (head : s.tdh < 256) (tail : s.tdt < 256)
    (room : (s.tdt + 1) % sendDescNum ≠ s.tdh) (accepted : List Packet)
    (progress : Progress) :
    pending { s with
      tdt := (s.tdt + 1) % sendDescNum, accepted := accepted, progress := progress } =
      s.pending ++ [s.tdt] := by
  have count : (sendDescNum + (s.tdt + 1) % sendDescNum - s.tdh) % sendDescNum =
      (sendDescNum + s.tdt - s.tdh) % sendDescNum + 1 := by
    simp only [sendDescNum] at room ⊢
    omega
  simp only [pending, count, List.range_succ, List.map_append, List.map_singleton]
  congr 2
  simp only [sendDescNum]
  omega

/-! ## What every step keeps -/

/-- What holds while a call of `i8254_send` is under way. -/
def Busy (s : Ring) : Prop :=
  match s.progress with
  | .idle => True
  | .checked index packet => index = s.tdt ∧ s.Roomy (.call packet)
  | .copied index packet =>
      index = s.tdt ∧ (s.tdt + 1) % sendDescNum ≠ s.tdh ∧ packet.length < 2 ^ 16 ∧
        Apart (p2v (s.bufAddr s.tdt)) packet.length s.table (descSize * sendDescNum) ∧
        s.mem.load (p2v (s.bufAddr s.tdt)) packet.length = packet
  | .filled index packet =>
      index = s.tdt ∧ (s.tdt + 1) % sendDescNum ≠ s.tdh ∧
        Apart (p2v (s.bufAddr s.tdt)) (s.len s.tdt) s.table (descSize * sendDescNum) ∧
        s.content s.tdt = packet

/-- Nothing is lost, and the packets that wait lie outside the table. -/
structure Inv (s : Ring) : Prop where
  head : s.tdh < 256
  tail : s.tdt < 256
  losesNothing : s.LosesNothing
  outside : ∀ index ∈ s.pending,
    Apart (p2v (s.bufAddr index)) (s.len index) s.table (descSize * sendDescNum)
  busy : s.Busy

theorem pending_initSend (mem : Mem) (txDescAddr : UInt32)
    (kalloc : Fin (sendDescNum / 2) → UInt32) :
    (initSend mem txDescAddr kalloc).pending = [] := by
  simp [pending, initSend]

theorem inv_initSend (mem : Mem) (txDescAddr : UInt32)
    (kalloc : Fin (sendDescNum / 2) → UInt32) : (initSend mem txDescAddr kalloc).Inv where
  head := Nat.zero_lt_succ _
  tail := Nat.zero_lt_succ _
  losesNothing := by
    rw [LosesNothing, pending_initSend]
    rfl
  outside := by
    intro index waits
    rw [pending_initSend] at waits
    cases waits
  busy := trivial

/-- A store that leaves the waiting descriptors and their packets. -/
theorem Inv.of_kept (inv : s.Inv) (table : s'.table = s.table) (tdh : s'.tdh = s.tdh)
    (tdt : s'.tdt = s.tdt) (accepted : s'.accepted = s.accepted)
    (wire : s'.wire = s.wire)
    (bufAddr : ∀ index ∈ s.pending, s'.bufAddr index = s.bufAddr index)
    (len : ∀ index ∈ s.pending, s'.len index = s.len index)
    (content : ∀ index ∈ s.pending, s'.content index = s.content index)
    (busy : s'.Busy) : s'.Inv := by
  have pending : s'.pending = s.pending := by
    rw [Ring.pending, Ring.pending, tdh, tdt]
  refine ⟨tdh ▸ inv.head, tdt ▸ inv.tail, ?_, ?_, busy⟩
  · rw [LosesNothing, accepted, wire, pending, List.map_congr_left content]
    exact inv.losesNothing
  · intro index waits
    rw [pending] at waits
    rw [table, bufAddr index waits, len index waits]
    exact inv.outside index waits

theorem Inv.call {packet : Packet} (inv : s.Inv) (roomy : s.Roomy (.call packet))
    (stepped : s.step (.call packet) = some s') : s'.Inv := by
  simp only [step] at stepped
  split_ifs at stepped
  · cases stepped
    have index : s.tdt % sendDescNum = s.tdt := Nat.mod_eq_of_lt inv.tail
    exact ⟨inv.head, inv.tail, inv.losesNothing, inv.outside, index, roomy⟩
  · cases stepped
    exact inv

theorem Inv.copy {packet : Packet} {index : Nat} (inv : s.Inv)
    (at' : s.progress = .checked index packet) :
    Inv { s with
      mem := s.mem.store (p2v (s.bufAddr index)) packet
      progress := .copied index packet } := by
  have busy := inv.busy
  rw [Busy, at'] at busy
  obtain ⟨rfl, room, fits, outside, apart⟩ := busy
  have same : SameTable s { s with
      mem := s.mem.store (p2v (s.bufAddr s.tdt)) packet
      progress := .copied s.tdt packet } 0 4096 := sameTable_copy outside
  have tail := inv.tail
  have kept (index : Nat) (inside : index < 256) :=
    bufAddr_congr index (same.mono (by omega) (by omega))
  have keptLen (index : Nat) (inside : index < 256) :=
    len_congr index (same.mono (by omega) (by omega))
  refine inv.of_kept rfl rfl rfl rfl rfl
    (fun index waits => kept index (lt_of_mem_pending waits))
    (fun index waits => keptLen index (lt_of_mem_pending waits)) ?_ ?_
  · intro index waits
    have inside := lt_of_mem_pending waits
    rw [content, content, kept index inside, keptLen index inside]
    exact s.mem.load_store_of_apart (apart index waits)
  · refine ⟨rfl, room, fits, ?_, ?_⟩
    · rw [kept _ tail]
      exact outside
    · rw [kept _ tail]
      exact s.mem.load_store (by omega)

theorem Inv.fill {packet : Packet} {index : Nat} (inv : s.Inv)
    (at' : s.progress = .copied index packet) :
    Inv { s with
      mem := s.fillDesc index packet
      progress := .filled index packet } := by
  have busy := inv.busy
  rw [Busy, at'] at busy
  obtain ⟨rfl, room, fits, outside, copied⟩ := busy
  have tail := inv.tail
  have kept (index : Nat) (inside : index < 256) :=
    bufAddr_congr index (sameTable_fill (s := s) packet (.filled s.tdt packet)
      (by omega) tail (by omega))
  have keptLen (index : Nat) (inside : index < 256) (other : index ≠ s.tdt) :=
    len_congr index (sameTable_fill (s := s) packet (.filled s.tdt packet)
      (by omega) tail (by omega))
  have loaded {addr : UInt32} {n : Nat} (apart : Apart addr n s.table 4096) :
      (s.fillDesc s.tdt packet).load addr n = s.mem.load addr n :=
    Mem.load_congr fun k below => fillDesc_of_outside fun m _ high =>
      (apart k below m (by omega)).symm
  have other {index : Nat} (waits : index ∈ s.pending) : index ≠ s.tdt := by
    rintro rfl
    exact tdt_not_mem_pending waits
  refine inv.of_kept rfl rfl rfl rfl rfl
    (fun index waits => kept index (lt_of_mem_pending waits))
    (fun index waits => keptLen index (lt_of_mem_pending waits) (other waits)) ?_ ?_
  · intro index waits
    have inside := lt_of_mem_pending waits
    rw [content, content, kept index inside, keptLen index inside (other waits)]
    exact loaded (inv.outside index waits)
  · refine ⟨rfl, room, ?_, ?_⟩
    · rw [kept _ tail, len_fill tail fits]
      exact outside
    · rw [content, kept _ tail, len_fill tail fits]
      exact (loaded outside).trans copied

theorem Inv.bump {packet : Packet} {index : Nat} (inv : s.Inv)
    (at' : s.progress = .filled index packet) :
    Inv { s with
      tdt := (s.tdt + 1) % sendDescNum
      accepted := s.accepted ++ [packet]
      progress := .idle } := by
  have busy := inv.busy
  rw [Busy, at'] at busy
  obtain ⟨rfl, room, outside, content⟩ := busy
  have pending := pending_append inv.head inv.tail room
    (s.accepted ++ [packet]) .idle
  have losesNothing := inv.losesNothing
  rw [LosesNothing] at losesNothing
  refine ⟨inv.head, Nat.mod_lt _ (by decide), ?_, ?_, trivial⟩
  · rw [LosesNothing, pending, List.map_append, ← List.append_assoc]
    change s.accepted ++ [packet] = s.wire ++ s.pending.map s.content ++ [s.content s.tdt]
    rw [← losesNothing, content]
  · intro index waits
    rw [pending, List.mem_append, List.mem_singleton] at waits
    rcases waits with before | rfl
    · exact inv.outside index before
    · exact outside

theorem Roomy.transmit {packet : Packet} (wire : List Packet)
    (roomy : s.Roomy (.call packet)) (head : s.tdh < 256) (tail : s.tdt < 256)
    (differ : s.tdh ≠ s.tdt) :
    Roomy { s with wire := wire, tdh := (s.tdh + 1) % sendDescNum } (.call packet) := by
  obtain ⟨room, fits, outside, apart⟩ := roomy
  refine ⟨?_, fits, outside, fun index waits => apart index ?_⟩
  · change (s.tdt + 1) % sendDescNum ≠ (s.tdh + 1) % sendDescNum
    simp only [sendDescNum]
    omega
  · rw [pending_cons head tail differ wire]
    exact List.mem_cons_of_mem _ waits

theorem Inv.transmit (inv : s.Inv) (differ : s.tdh ≠ s.tdt) :
    Inv { s with
      wire := s.wire ++ [s.content s.tdh]
      tdh := (s.tdh + 1) % sendDescNum } := by
  have head := inv.head
  have tail := inv.tail
  have pending := pending_cons head tail differ (s.wire ++ [s.content s.tdh])
  have losesNothing := inv.losesNothing
  rw [LosesNothing, pending, List.map_cons] at losesNothing
  have stays (room : (s.tdt + 1) % sendDescNum ≠ s.tdh) :
      (s.tdt + 1) % sendDescNum ≠ (s.tdh + 1) % sendDescNum := by
    simp only [sendDescNum]
    omega
  refine ⟨Nat.mod_lt _ (by decide), tail, ?_, ?_, ?_⟩
  · rw [LosesNothing, List.append_assoc]
    exact losesNothing
  · intro index waits
    exact inv.outside index (pending ▸ List.mem_cons_of_mem _ waits)
  · have busy := inv.busy
    unfold Busy at busy ⊢
    cases at' : s.progress with
    | idle => trivial
    | checked index packet =>
        rw [at'] at busy
        exact ⟨busy.1, Roomy.transmit (s.wire ++ [s.content s.tdh]) busy.2 head tail differ⟩
    | copied index packet =>
        rw [at'] at busy
        obtain ⟨same, room, rest⟩ := busy
        exact ⟨same, stays room, rest⟩
    | filled index packet =>
        rw [at'] at busy
        obtain ⟨same, room, rest⟩ := busy
        exact ⟨same, stays room, rest⟩

theorem Inv.step {label : Label} (inv : s.Inv) (roomy : s.Roomy label)
    (stepped : s.step label = some s') : s'.Inv := by
  cases label with
  | call packet => exact inv.call roomy stepped
  | go =>
      cases at' : s.progress with
      | idle => simp [Ring.step, at'] at stepped
      | checked index packet =>
          simp only [Ring.step, at', Option.some.injEq] at stepped
          exact stepped ▸ inv.copy at'
      | copied index packet =>
          simp only [Ring.step, at', Option.some.injEq] at stepped
          exact stepped ▸ inv.fill at'
      | filled index packet =>
          simp only [Ring.step, at', Option.some.injEq] at stepped
          exact stepped ▸ inv.bump at'
  | transmit =>
      simp only [Ring.step] at stepped
      split_ifs at stepped with empty
      cases stepped
      exact inv.transmit empty

/-- In every interleaving of sends and transmissions from the state that the
initialisation leaves, whatever the card's page held and `kalloc` returned, as
long as every call finds room, nothing is lost. -/
theorem losesNothing_of_run {mem : Mem} {txDescAddr : UInt32}
    {kalloc : Fin (sendDescNum / 2) → UInt32} {labels : List Label} {last : Ring}
    (meets : LabelledRuns.RunMeets Ring.step Roomy (initSend mem txDescAddr kalloc) labels)
    (ran : LabelledRuns.run Ring.step (initSend mem txDescAddr kalloc) labels =
      some last) : last.LosesNothing :=
  (LabelledRuns.invariant_of_runMeets
    (fun inv roomy stepped => Inv.step inv roomy stepped)
    (inv_initSend mem txDescAddr kalloc) meets ran).losesNothing

/-! ## The buffers that the initialisation gives -/

theorem word_store_word (mem : Mem) (addr value : UInt32) :
    (mem.store addr (bytesOfWord value)).word addr = value := by
  have stored (k : Nat) (small : k < (bytesOfWord value).length) :
      mem.store addr (bytesOfWord value) (addr + UInt32.ofNat k) = (bytesOfWord value)[k] :=
    mem.store_inside small (Nat.lt_trans small (by simp [bytesOfWord]))
  have length : (bytesOfWord value).length = 4 := by simp [bytesOfWord]
  have first : mem.store addr (bytesOfWord value) (addr + 0) = _ := stored 0 (by omega)
  have second : mem.store addr (bytesOfWord value) (addr + 1) = _ := stored 1 (by omega)
  have third : mem.store addr (bytesOfWord value) (addr + 2) = _ := stored 2 (by omega)
  have fourth : mem.store addr (bytesOfWord value) (addr + 3) = _ := stored 3 (by omega)
  rw [UInt32.add_zero] at first
  have bound := value.toNat_lt
  apply UInt32.toNat_inj.mp
  rw [Mem.word, first, second, third, fourth]
  simp only [bytesOfWord, List.getElem_cons_zero, List.getElem_cons_succ,
    UInt8.toNat_ofNat', UInt32.toNat_ofNat']
  omega

theorem word_store_other (mem : Mem) (table value : UInt32) {i j : Nat} (differ : i ≠ j)
    (boundI : i < 256) (boundJ : j < 256) :
    (mem.store (fieldAddr table i .bufAddr) (bytesOfWord value)).word
        (fieldAddr table j .bufAddr) =
      mem.word (fieldAddr table j .bufAddr) := by
  apply Mem.word_congr
  intro k small
  apply mem.store_of_apart
  intro l before
  have length : (bytesOfWord value).length = 4 := rfl
  have offset : Field.bufAddr.offset = 0 := rfl
  rw [fieldAddr_add, fieldAddr_add]
  exact tableAddr_ne _ (by omega) (by omega) (by omega)

theorem giveBuffers_before (table : UInt32) (mem : Mem) {i index : Nat}
    (pages : List UInt32) (room : i + pages.length < 256) (before : index < i) :
    (giveBuffers table mem i pages).word (fieldAddr table index .bufAddr) =
      mem.word (fieldAddr table index .bufAddr) := by
  induction pages generalizing mem i with
  | nil => rfl
  | cons page rest ih =>
      rw [List.length_cons] at room
      unfold giveBuffers
      split_ifs
      · rfl
      · rw [ih _ (by omega) (by omega),
          word_store_other _ _ _ (by omega) (by omega) (by omega),
          word_store_other _ _ _ (by omega) (by omega) (by omega)]

/-- A page goes to the descriptor of its own index; its second half goes to the
next descriptor only until that one gets a page of its own. -/
theorem giveBuffers_at (table : UInt32) (mem : Mem) {i k : Nat} (pages : List UInt32)
    (room : i + pages.length < 256) (allocated : ∀ page ∈ pages, page ≠ 0)
    (inside : k < pages.length) :
    (giveBuffers table mem i pages).word (fieldAddr table (i + k) .bufAddr) =
      v2p pages[k] := by
  induction pages generalizing mem i k with
  | nil => cases inside
  | cons page rest ih =>
      rw [List.length_cons] at room inside
      unfold giveBuffers
      rw [if_neg (allocated page List.mem_cons_self)]
      cases k with
      | zero =>
          change (giveBuffers table _ (i + 1) rest).word (fieldAddr table i .bufAddr) = v2p page
          rw [giveBuffers_before _ _ _ (by omega) (by omega),
            word_store_other _ _ _ (by omega) (by omega) (by omega), word_store_word]
      | succ k =>
          have shifted : i + (k + 1) = i + 1 + k := by omega
          rw [shifted]
          exact ih _ (by omega) (fun page member =>
            allocated page (List.mem_cons_of_mem _ member)) (by omega)

theorem bufAddr_initSend (mem : Mem) (txDescAddr : UInt32)
    {kalloc : Fin (sendDescNum / 2) → UInt32} (allocated : ∀ i, kalloc i ≠ 0)
    (index : Fin (sendDescNum / 2)) :
    (initSend mem txDescAddr kalloc).bufAddr index = v2p (kalloc index) := by
  have given := giveBuffers_at txDescAddr
    ((List.range sendDescNum).foldl (clearDesc txDescAddr) mem) (i := 0) (k := index)
    (List.ofFn kalloc) (by rw [List.length_ofFn]; decide)
    (by simpa [List.mem_ofFn] using allocated) (by simp)
  rw [Nat.zero_add, List.getElem_ofFn] at given
  exact given

/-- A machine whose free pages were filled by `kfree` and whose allocator hands
out pages downwards from one address. -/
def bootPages (i : Fin (sendDescNum / 2)) : UInt32 :=
  0x8dffd000 - UInt32.ofNat (4096 * i.val)

def bootRing : Ring :=
  initSend (fun _ => 1) 0x8dffe000 bootPages

/-- The steps of one `i8254_send` from its entry to its return. -/
def sendLabels (packet : Packet) : List Label :=
  [.call packet, .go, .go, .go]

/-- The check for a free descriptor never fails. -/
theorem txAvailable_pos : 0 < s.txAvailable := by
  have occupied := Nat.mod_lt ((sendDescNum + 2 ^ 32 - s.tdh + s.tdt) % 2 ^ 32)
    (show sendDescNum > 0 by decide)
  simp only [txAvailable, sendDescNum] at occupied ⊢
  omega

theorem run_send (idle : s.progress = .idle) (packet : Packet)
    (small : packet.length < 2 ^ 32) :
    ∃ mem, LabelledRuns.run Ring.step s (sendLabels packet) = some { s with
      mem := mem
      tdt := (s.tdt + 1) % sendDescNum
      accepted := s.accepted ++ [packet]
      progress := .idle } := by
  refine ⟨fillDesc { s with
    mem := s.mem.store (p2v (s.bufAddr (s.tdt % sendDescNum))) packet
    progress := .copied (s.tdt % sendDescNum) packet } (s.tdt % sendDescNum) packet, ?_⟩
  simp only [sendLabels, LabelledRuns.run, Ring.step, idle, small, txAvailable_pos,
    gt_iff_lt, and_self, if_true, Option.bind_some]
  rfl

theorem apart_of_below {a b : UInt32} {n m : Nat} (below : a.toNat + n ≤ b.toNat)
    (top : b.toNat + m ≤ 2 ^ 32) : Apart a n b m := by
  intro j inside k inside' same
  have sums := congrArg UInt32.toNat same
  rw [UInt32.toNat_add, UInt32.toNat_add, UInt32.toNat_ofNat', UInt32.toNat_ofNat'] at sums
  omega

theorem meets_send {packet : Packet} (roomy : s.Roomy (.call packet)) :
    LabelledRuns.RunMeets Ring.step Roomy s (sendLabels packet) :=
  ⟨roomy, fun _ _ => ⟨trivial, fun _ _ => ⟨trivial, fun _ _ => ⟨trivial, fun _ _ => trivial⟩⟩⟩⟩

/-- No step changes the buffer of a descriptor. -/
theorem bufAddr_step {label : Label} (inv : s.Inv) (stepped : s.step label = some s')
    {index : Nat} (inside : index < 256) : s'.bufAddr index = s.bufAddr index := by
  cases label with
  | call packet =>
      simp only [Ring.step] at stepped
      split_ifs at stepped <;> cases stepped <;> rfl
  | go =>
      have busy := inv.busy
      cases at' : s.progress with
      | idle => simp [Ring.step, at'] at stepped
      | checked place packet =>
          rw [Busy, at'] at busy
          obtain ⟨rfl, -, -, outside, -⟩ := busy
          simp only [Ring.step, at', Option.some.injEq] at stepped
          exact stepped ▸ bufAddr_congr index
            ((sameTable_copy outside).mono (by omega) (by omega))
      | copied place packet =>
          rw [Busy, at'] at busy
          obtain ⟨rfl, -⟩ := busy
          simp only [Ring.step, at', Option.some.injEq] at stepped
          exact stepped ▸ bufAddr_congr index
            (sameTable_fill packet _ (by omega) inv.tail (by omega))
      | filled place packet =>
          simp only [Ring.step, at', Option.some.injEq] at stepped
          exact stepped ▸ rfl
  | transmit =>
      simp only [Ring.step] at stepped
      split_ifs at stepped
      cases stepped
      rfl

theorem bufAddr_run {labels : List Label} (inv : s.Inv)
    (meets : LabelledRuns.RunMeets Ring.step Roomy s labels)
    (ran : LabelledRuns.run Ring.step s labels = some s') :
    s'.Inv ∧ ∀ index < 256, s'.bufAddr index = s.bufAddr index := by
  have kept : ∀ {t : Ring} {label : Label} {next : Ring},
      (t.Inv ∧ ∀ index < 256, t.bufAddr index = s.bufAddr index) → Roomy t label →
      Ring.step t label = some next →
      next.Inv ∧ ∀ index < 256, next.bufAddr index = s.bufAddr index := by
    intro t label next holds roomy stepped
    refine ⟨holds.1.step roomy stepped, fun index inside => ?_⟩
    rw [bufAddr_step holds.1 stepped inside]
    exact holds.2 index inside
  exact LabelledRuns.invariant_of_runMeets kept ⟨inv, fun _ _ => rfl⟩ meets ran

theorem bootRing_bufAddr (i : Fin (sendDescNum / 2)) :
    bootRing.bufAddr i = v2p (bootPages i) :=
  bufAddr_initSend (fun _ => 1) 0x8dffe000 (by decide +kernel) i

/-- Two packets, of which the card has transmitted the first. -/
def sendTwo : List Label :=
  sendLabels [1, 2, 3] ++ (sendLabels [4, 5] ++ [Label.transmit])

theorem exists_send (idle : s.progress = .idle) (packet : Packet)
    (small : packet.length < 2 ^ 32) :
    ∃ s', LabelledRuns.run Ring.step s (sendLabels packet) = some s' ∧ s'.progress = .idle ∧
      s'.table = s.table ∧ s'.tdh = s.tdh ∧ s'.tdt = (s.tdt + 1) % sendDescNum ∧
      s'.accepted = s.accepted ++ [packet] ∧ s'.wire = s.wire := by
  obtain ⟨mem, ran⟩ := run_send idle packet small
  exact ⟨_, ran, rfl, rfl, rfl, rfl, rfl, rfl⟩

theorem losesNothing_sendTwo :
    LabelledRuns.RunMeets Ring.step Roomy bootRing sendTwo ∧
      ∃ last, LabelledRuns.run Ring.step bootRing sendTwo = some last ∧
        last.accepted = [[1, 2, 3], [4, 5]] ∧ last.wire = [[1, 2, 3]] ∧ last.pending = [1] ∧
        last.content 1 = [4, 5] := by
  have first : bootRing.Roomy (.call [1, 2, 3]) := by
    have address : bootRing.bufAddr bootRing.tdt = _ := bootRing_bufAddr ⟨0, by decide⟩
    refine ⟨by decide, by decide, ?_, ?_⟩
    · rw [address]
      exact apart_of_below (by decide) (by decide)
    · intro index waits
      rw [bootRing, pending_initSend] at waits
      cases waits
  obtain ⟨one, sent, idle, table, tdh, tdt, accepted, wire⟩ :=
    exists_send (s := bootRing) rfl [1, 2, 3] (by decide)
  obtain ⟨inv, places⟩ := bufAddr_run (inv_initSend _ _ _) (meets_send first) sent
  change one.table = 0x8dffe000 at table
  change one.tdh = 0 at tdh
  change one.tdt = 1 at tdt
  change one.accepted = [[1, 2, 3]] at accepted
  change one.wire = [] at wire
  have waits : one.pending = [0] := by
    rw [pending, tdh, tdt]
    rfl
  have content : one.content 0 = [1, 2, 3] := by
    have losesNothing := inv.losesNothing
    rw [LosesNothing, waits, accepted, wire] at losesNothing
    exact (List.singleton_inj.mp losesNothing).symm
  have length : one.len 0 = 3 := by
    simpa [Ring.content, Mem.load] using congrArg List.length content
  have second : one.Roomy (.call [4, 5]) := by
    have before : one.bufAddr 0 = _ := (places 0 (by decide)).trans
      (bootRing_bufAddr ⟨0, by decide⟩)
    have address : one.bufAddr 1 = _ := (places 1 (by decide)).trans
      (bootRing_bufAddr ⟨1, by decide⟩)
    refine ⟨by rw [tdh, tdt]; decide, by decide, ?_, ?_⟩
    · rw [tdt, address, table]
      exact apart_of_below (by decide) (by decide)
    · intro index isFirst
      rw [waits, List.mem_singleton] at isFirst
      rw [isFirst, tdt, address, before, length]
      exact apart_of_below (by decide) (by decide)
  obtain ⟨two, sent', -, -, tdh', tdt', accepted', -⟩ := exists_send idle [4, 5] (by decide)
  have inv' := (bufAddr_run inv (meets_send second) sent').1
  rw [tdh] at tdh'
  rw [tdt] at tdt'
  rw [accepted] at accepted'
  have apart : two.tdh ≠ two.tdt := by
    rw [tdh', tdt']
    decide
  have transmitted : two.step .transmit = some _ := if_neg apart
  have meets : LabelledRuns.RunMeets Ring.step Roomy bootRing sendTwo :=
    (LabelledRuns.runMeets_append sent).mpr ⟨meets_send first,
      (LabelledRuns.runMeets_append sent').mpr ⟨meets_send second, trivial, fun _ _ => trivial⟩⟩
  have ran : LabelledRuns.run Ring.step bootRing sendTwo = some _ :=
    LabelledRuns.run_append_eq_some.mpr ⟨one, sent, LabelledRuns.run_append_eq_some.mpr
      ⟨two, sent', LabelledRuns.run_cons_eq_some.mpr ⟨_, transmitted, rfl⟩⟩⟩
  have remains : pending { two with
      wire := two.wire ++ [two.content two.tdh]
      tdh := (two.tdh + 1) % sendDescNum } = [1] := by
    have waits' : two.pending = [0, 1] := by
      rw [pending, tdh', tdt']
      rfl
    have tail := pending_cons inv'.head inv'.tail apart (two.wire ++ [two.content two.tdh])
    rw [waits'] at tail
    exact (List.cons.inj tail).2.symm
  have losesNothing := losesNothing_of_run meets ran
  rw [LosesNothing, remains] at losesNothing
  obtain ⟨sentFirst, waitsSecond⟩ := List.append_inj' (accepted'.symm.trans losesNothing) rfl
  exact ⟨meets, _, ran, accepted', sentFirst.symm, remains,
    (List.singleton_inj.mp waitsSecond).symm⟩

theorem run_sends (idle : s.progress = .idle) (packet : Nat → Packet)
    (small : ∀ k, (packet k).length < 2 ^ 32) (tdt : s.tdt = 0) (n : Nat) :
    ∃ mem, LabelledRuns.run Ring.step s ((List.range n).flatMap fun k => sendLabels (packet k)) =
      some { s with
        mem := mem
        tdt := n % sendDescNum
        accepted := s.accepted ++ (List.range n).map packet } := by
  induction n with
  | zero =>
      refine ⟨s.mem, ?_⟩
      cases s
      cases tdt
      simp
  | succ n ih =>
      obtain ⟨mem, ran⟩ := ih
      obtain ⟨mem', sent⟩ := run_send (s := { s with
        mem := mem
        tdt := n % sendDescNum
        accepted := s.accepted ++ (List.range n).map packet }) idle (packet n) (small n)
      refine ⟨mem', ?_⟩
      rw [List.range_succ, List.flatMap_append, LabelledRuns.run_append, ran]
      simpa [idle, List.range_succ] using sent

/-- With no transmission in between, 256 calls are all accepted and leave the
two registers equal: the card has nothing to transmit. -/
theorem fullRing_losesAll :
    ∃ last, LabelledRuns.run Ring.step bootRing
        ((List.range 256).flatMap fun k => sendLabels [UInt8.ofNat k]) = some last ∧
      last.accepted.length = 256 ∧ last.wire = [] ∧ last.pending = [] ∧
      ¬ last.LosesNothing := by
  obtain ⟨mem, ran⟩ := run_sends (s := bootRing) rfl (fun k => [UInt8.ofNat k])
    (fun _ => by simp) rfl 256
  refine ⟨_, ran, ?_, rfl, ?_, ?_⟩
  · simp [bootRing, initSend]
  · simp [bootRing, initSend, pending]
  · intro losesNothing
    have lengths := congrArg List.length losesNothing
    simp [bootRing, initSend, pending] at lengths

end Ring

end Xv6.Nic
