import Xv6.LabelledRuns
import Mathlib.Data.Fin.Basic
import Mathlib.Logic.Function.Basic
import Mathlib.Tactic.SplitIfs

/-!
# The ARP table

`arp_proc` answers requests for this machine's address and records replies in a
table of 64 entries.  `arp_table_search` returns one signed integer: the index
of a matching entry, or one less than the negated index of the first unused
entry, or 0 when the table is full.  `arp_table_update` decodes it and cannot
tell a full table from a match in entry 0; and an unused entry, whose address
is all zero, matches the sender 0.0.0.0.
-/

namespace Xv6.Arp

abbrev Ip := Vector UInt8 4

abbrev Mac := Vector UInt8 6

/-- `struct eth_pkt`. -/
structure EthPkt where
  dstMac : Mac
  srcMac : Mac
  type : Vector UInt8 2

/-- `struct arp_pkt`; the two-byte fields are as the processor loads them.  The
source declares `dst_ip` with six bytes and uses the first four. -/
structure ArpPkt where
  hrdType : UInt16
  proType : UInt16
  hrdLen : UInt8
  proLen : UInt8
  op : UInt16
  srcMac : Mac
  srcIp : Ip
  dstMac : Mac
  dstIp : Ip
  dstIpRest : Vector UInt8 2

/-- `struct arp_entry`. -/
structure ArpEntry where
  ip : Ip
  mac : Mac
  use : UInt8

abbrev arpTableMax : Nat := 64
abbrev arpHardwareType : UInt16 := 0x0100
abbrev arpProtocolType : UInt16 := 0x0008
abbrev arpOpsRequest : UInt16 := 0x0100
abbrev arpOpsReply : UInt16 := 0x0200
abbrev arpUpdatedTable : Int := 1
abbrev arpCreatedReply : Int := 2

abbrev Table := Fin arpTableMax → ArpEntry

def zeroIp : Ip := Vector.replicate 4 0

/-- The entries of `arp_table` at boot: `{0}`. -/
def ArpEntry.zero : ArpEntry where
  ip := zeroIp
  mac := Vector.replicate 6 0
  use := 0

def Table.zero : Table := fun _ => .zero

/-- The loop of `arp_table_search`, at the indices still to be visited. -/
def arpTableSearch.loop (table : Table) (ip : Ip) :
    List (Fin arpTableMax) → Int → Int
  | [], empty => empty - 1
  | i :: rest, empty =>
      if (table i).ip = ip then i
      else loop table ip rest
        (if (table i).use = 0 ∧ empty = 1 then -(i : Int) else empty)

def arpTableSearch (table : Table) (ip : Ip) : Int :=
  arpTableSearch.loop table ip (List.finRange arpTableMax) 1

/-- Change the entry at an index; `arpTableSearch_cases` shows that the index is
never out of range. -/
def Table.modify (table : Table) (index : Int) (change : ArpEntry → ArpEntry) :
    Table :=
  if inside : index.toNat < arpTableMax then
    Function.update table ⟨index.toNat, inside⟩ (change (table ⟨index.toNat, inside⟩))
  else table

def arpTableUpdate (table : Table) (recvArp : ArpPkt) : Table :=
  let index := arpTableSearch table recvArp.srcIp
  if index > -1 then
    table.modify index fun entry => { entry with mac := recvArp.srcMac }
  else
    let index := index + 1
    let index := -index
    table.modify index fun _ =>
      { mac := recvArp.srcMac, ip := recvArp.srcIp, use := 1 }

/-- The addresses of this machine, `my_ip` and `mac_addr`. -/
structure Host where
  myIp : Ip
  macAddr : Mac

/-- A frame that carries an ARP packet. -/
structure Frame where
  eth : EthPkt
  arp : ArpPkt

/-- `arp_reply_pkt_create`, over the old contents of the page; the size of the
frame is that of its two headers. -/
def arpReplyPktCreate (host : Host) (arpRecv : ArpPkt) (send : Frame) :
    Frame × Nat :=
  ({ eth :=
      { type := #v[0x08, 0x06]
        dstMac := arpRecv.srcMac
        srcMac := host.macAddr }
     arp :=
      { send.arp with
        hrdType := arpHardwareType
        proType := arpProtocolType
        hrdLen := 6
        proLen := 4
        op := arpOpsReply
        dstMac := arpRecv.srcMac
        dstIp := arpRecv.srcIp
        srcMac := host.macAddr
        srcIp := host.myIp } }, 14 + 30)

/-- What a call of `arp_proc` does: its value, the table it leaves and the frame
it passes to `i8254_send`. -/
structure Outcome where
  value : Int
  table : Table
  sent : Option (Frame × Nat)

def arpProc (host : Host) (table : Table) (page : Frame) (arpP : ArpPkt) :
    Outcome :=
  if arpP.hrdType ≠ arpHardwareType then ⟨-1, table, none⟩
  else if arpP.proType ≠ arpProtocolType then ⟨-1, table, none⟩
  else if arpP.hrdLen ≠ 6 then ⟨-1, table, none⟩
  else if arpP.proLen ≠ 4 then ⟨-1, table, none⟩
  else if host.myIp ≠ arpP.dstIp ∧ host.myIp ≠ arpP.srcIp then
    ⟨-1, table, none⟩
  else if arpP.op = arpOpsRequest ∧ host.myIp = arpP.dstIp then
    ⟨arpCreatedReply, table, some (arpReplyPktCreate host arpP page)⟩
  else if arpP.op = arpOpsReply ∧ host.myIp = arpP.dstIp then
    ⟨arpUpdatedTable, arpTableUpdate table arpP, none⟩
  else ⟨-1, table, none⟩

/-- The replies that `arp_proc` records. -/
structure Recorded (host : Host) (arpP : ArpPkt) : Prop where
  hrdType : arpP.hrdType = arpHardwareType
  proType : arpP.proType = arpProtocolType
  hrdLen : arpP.hrdLen = 6
  proLen : arpP.proLen = 4
  op : arpP.op = arpOpsReply
  dstIp : host.myIp = arpP.dstIp

instance (host : Host) (arpP : ArpPkt) : Decidable (Recorded host arpP) :=
  decidable_of_iff
    (arpP.hrdType = arpHardwareType ∧ arpP.proType = arpProtocolType ∧
      arpP.hrdLen = 6 ∧ arpP.proLen = 4 ∧ arpP.op = arpOpsReply ∧
      host.myIp = arpP.dstIp)
    ⟨fun ⟨hrdType, proType, hrdLen, proLen, op, dstIp⟩ =>
      ⟨hrdType, proType, hrdLen, proLen, op, dstIp⟩,
     fun ⟨hrdType, proType, hrdLen, proLen, op, dstIp⟩ =>
      ⟨hrdType, proType, hrdLen, proLen, op, dstIp⟩⟩

theorem reply_ne_request : arpOpsReply ≠ arpOpsRequest := by
  decide

theorem arpProc_of_recorded {host : Host} {arpP : ArpPkt}
    (recorded : Recorded host arpP) (table : Table) (page : Frame) :
    arpProc host table page arpP =
      ⟨arpUpdatedTable, arpTableUpdate table arpP, none⟩ := by
  obtain ⟨hrdType, proType, hrdLen, proLen, op, dstIp⟩ := recorded
  simp [arpProc, hrdType, proType, hrdLen, proLen, op, dstIp, reply_ne_request]

theorem arpProc_of_not_recorded {host : Host} {arpP : ArpPkt}
    (ignored : ¬ Recorded host arpP) (table : Table) (page : Frame) :
    (arpProc host table page arpP).value ≠ arpUpdatedTable ∧
      (arpProc host table page arpP).table = table := by
  have refused : (-1 : Int) ≠ arpUpdatedTable := by decide
  have answered : arpCreatedReply ≠ arpUpdatedTable := by decide
  unfold arpProc
  split_ifs with hrdType proType hrdLen proLen mine request reply
  · exact ⟨refused, rfl⟩
  · exact ⟨refused, rfl⟩
  · exact ⟨refused, rfl⟩
  · exact ⟨refused, rfl⟩
  · exact ⟨refused, rfl⟩
  · exact ⟨answered, rfl⟩
  · exact absurd ⟨not_ne_iff.mp hrdType, not_ne_iff.mp proType, not_ne_iff.mp hrdLen,
      not_ne_iff.mp proLen, reply.1, reply.2⟩ ignored
  · exact ⟨refused, rfl⟩

/-! ## What a search returns -/

/-- The three results of the loop: a match, the first unused entry among those
visited, or neither. -/
theorem arpTableSearch.loop_cases (table : Table) (ip : Ip)
    (indices : List (Fin arpTableMax)) (ordered : indices.Pairwise (· < ·))
    (empty : Int) :
    (∃ i ∈ indices, (table i).ip = ip ∧ loop table ip indices empty = i) ∨
      (∀ i ∈ indices, (table i).ip ≠ ip) ∧
        ((empty ≠ 1 ∧ loop table ip indices empty = empty - 1) ∨
          (empty = 1 ∧ ∃ i ∈ indices, (table i).use = 0 ∧
            (∀ j ∈ indices, j < i → (table j).use ≠ 0) ∧
            loop table ip indices empty = -(i : Int) - 1) ∨
          (empty = 1 ∧ (∀ i ∈ indices, (table i).use ≠ 0) ∧
            loop table ip indices empty = 0)) := by
  induction indices generalizing empty with
  | nil =>
      right
      by_cases fresh : empty = 1 <;> simp [loop, fresh]
  | cons i rest ih =>
      rw [List.pairwise_cons] at ordered
      by_cases same : (table i).ip = ip
      · exact .inl ⟨i, by simp, same, by simp [loop, same]⟩
      · by_cases free : (table i).use = 0 ∧ empty = 1
        · have other : -(i : Int) ≠ 1 := by omega
          have unfolded : loop table ip (i :: rest) empty =
              loop table ip rest (-(i : Int)) := by
            simp [loop, same, free]
          have first : ∀ j ∈ i :: rest, j < i → (table j).use ≠ 0 := by
            intro j inside before
            rcases List.mem_cons.mp inside with rfl | later
            · exact absurd before (Fin.lt_irrefl _)
            · exact absurd before (Fin.lt_asymm (ordered.1 j later))
          rw [unfolded]
          rcases ih ordered.2 (-(i : Int)) with ⟨j, inside, found, result⟩ | ⟨none, rest⟩
          · exact .inl ⟨j, by simp [inside], found, result⟩
          · refine .inr ⟨by simpa [same] using none, .inr (.inl ⟨free.2, i, by simp, free.1,
              first, ?_⟩)⟩
            rcases rest with ⟨_, result⟩ | ⟨bad, _⟩ | ⟨bad, _⟩
            · exact result
            · exact absurd bad other
            · exact absurd bad other
        · have unfolded : loop table ip (i :: rest) empty =
              loop table ip rest empty := by
            simp [loop, same, free]
          rw [unfolded]
          rcases ih ordered.2 empty with ⟨j, inside, found, result⟩ | ⟨none, rest⟩
          · exact .inl ⟨j, by simp [inside], found, result⟩
          · refine .inr ⟨by simpa [same] using none, ?_⟩
            rcases rest with kept | ⟨fresh, j, inside, unused, first, result⟩ |
              ⟨fresh, full, result⟩
            · exact .inl kept
            · have used : (table i).use ≠ 0 := fun unused => free ⟨unused, fresh⟩
              exact .inr (.inl ⟨fresh, j, by simp [inside], unused,
                by simpa [used] using first, result⟩)
            · have used : (table i).use ≠ 0 := fun unused => free ⟨unused, fresh⟩
              exact .inr (.inr ⟨fresh, by simpa [used] using full, result⟩)

theorem arpTableSearch_cases (table : Table) (ip : Ip) :
    (∃ i, (table i).ip = ip ∧ arpTableSearch table ip = i) ∨
      (∀ i, (table i).ip ≠ ip) ∧
        ((∃ i, (table i).use = 0 ∧ (∀ j, j < i → (table j).use ≠ 0) ∧
            arpTableSearch table ip = -(i : Int) - 1) ∨
          (∀ i, (table i).use ≠ 0) ∧ arpTableSearch table ip = 0) := by
  have cases := arpTableSearch.loop_cases table ip (List.finRange arpTableMax)
    (List.pairwise_lt_finRange arpTableMax) 1
  simpa [arpTableSearch] using cases

theorem Table.modify_fin (table : Table) (i : Fin arpTableMax)
    (change : ArpEntry → ArpEntry) :
    table.modify i change = Function.update table i (change (table i)) := by
  simp [Table.modify]

/-- What an update does: it replaces the address of a matching entry, it fills
an unused entry, or, in a full table, it replaces the address of entry 0. -/
theorem arpTableUpdate_cases (table : Table) (recvArp : ArpPkt) :
    (∃ i, (table i).ip = recvArp.srcIp ∧
      arpTableUpdate table recvArp =
        Function.update table i { table i with mac := recvArp.srcMac }) ∨
    (∀ i, (table i).ip ≠ recvArp.srcIp) ∧
      ((∃ i, (table i).use = 0 ∧ (∀ j, j < i → (table j).use ≠ 0) ∧
        arpTableUpdate table recvArp = Function.update table i
          { mac := recvArp.srcMac, ip := recvArp.srcIp, use := 1 }) ∨
      (∀ i, (table i).use ≠ 0) ∧
        arpTableUpdate table recvArp =
          Function.update table 0 { table 0 with mac := recvArp.srcMac }) := by
  rcases arpTableSearch_cases table recvArp.srcIp with
    ⟨i, same, result⟩ | ⟨none, ⟨i, unused, first, result⟩ | ⟨full, result⟩⟩
  · have found : (i : Int) > -1 := by omega
    refine .inl ⟨i, same, ?_⟩
    simp only [arpTableUpdate, result, if_pos found, Table.modify_fin]
  · have missed : ¬ -(i : Int) - 1 > -1 := by omega
    have decoded : -(-(i : Int) - 1 + 1) = i := by omega
    refine .inr ⟨none, .inl ⟨i, unused, first, ?_⟩⟩
    simp only [arpTableUpdate, result, if_neg missed, decoded, Table.modify_fin]
  · refine .inr ⟨none, .inr ⟨full, ?_⟩⟩
    have first := Table.modify_fin table 0 fun entry => { entry with mac := recvArp.srcMac }
    simpa [arpTableUpdate, result] using first

/-! ## Sequences of packets -/

/-- The table and the replies recorded so far, the latest first. -/
structure System where
  table : Table
  replies : List (Ip × Mac)

namespace System

def boot : System where
  table := .zero
  replies := []

/-- One packet handled by `arp_proc`, with the old contents of the page that an
answer would be written to. -/
structure Label where
  packet : ArpPkt
  page : Frame

def step (host : Host) (s : System) (label : Label) : Option System :=
  let outcome := arpProc host s.table label.page label.packet
  some
    { table := outcome.table
      replies :=
        if outcome.value = arpUpdatedTable then
          (label.packet.srcIp, label.packet.srcMac) :: s.replies
        else s.replies }

/-- The hardware address in the latest recorded reply from an address. -/
def latest (s : System) (ip : Ip) : Option Mac :=
  s.replies.lookup ip

/-- An entry in use holds this hardware address for this address. -/
def Stored (s : System) (ip : Ip) (mac : Mac) : Prop :=
  ∃ i, (s.table i).use = 1 ∧ (s.table i).ip = ip ∧ (s.table i).mac = mac

/-- The table is a map to the latest sender: no two entries in use have one
address, and a search for an address that has sent a recorded reply and is
still in the table finds an entry in use with the latest hardware address. -/
structure IsMap (s : System) : Prop where
  distinct : ∀ i j, (s.table i).use = 1 → (s.table j).use = 1 →
    (s.table i).ip = (s.table j).ip → i = j
  found : ∀ ip mac, s.latest ip = some mac → (∃ i, (s.table i).ip = ip) →
    ∃ i : Fin arpTableMax, arpTableSearch s.table ip = i ∧
      (s.table i).use = 1 ∧ (s.table i).mac = mac

/-- A recorded reply leaves what is stored for the other addresses. -/
def KeepsOthers (host : Host) (s : System) (label : Label) (next : System) : Prop :=
  Recorded host label.packet →
    ∀ ip mac, ip ≠ label.packet.srcIp → s.Stored ip mac → next.Stored ip mac

/-- The replies whose recording goes right: from another address than 0.0.0.0,
and for which the table has an entry or an unused one. -/
def Recordable (host : Host) (s : System) (label : Label) : Prop :=
  Recorded host label.packet →
    label.packet.srcIp ≠ zeroIp ∧
      ((∃ i, (s.table i).ip = label.packet.srcIp) ∨ ∃ i, (s.table i).use = 0)

instance (host : Host) (s : System) (label : Label) :
    Decidable (Recordable host s label) :=
  inferInstanceAs (Decidable (_ → _))

theorem step_of_recorded {host : Host} {s : System} {label : Label}
    (recorded : Recorded host label.packet) :
    step host s label =
      some ⟨arpTableUpdate s.table label.packet,
        (label.packet.srcIp, label.packet.srcMac) :: s.replies⟩ := by
  simp [step, arpProc_of_recorded recorded]

theorem step_of_not_recorded {host : Host} {s : System} {label : Label}
    (ignored : ¬ Recorded host label.packet) : step host s label = some s := by
  obtain ⟨value, table⟩ := arpProc_of_not_recorded ignored s.table label.page
  simp [step, value, table]

/-- Entries in use are exactly the addresses, other than 0.0.0.0, that have been
recorded, each once and with its latest hardware address. -/
structure Inv (s : System) : Prop where
  unused : ∀ i, (s.table i).use = 0 → (s.table i).ip = zeroIp
  used : ∀ i, (s.table i).use ≠ 0 →
    (s.table i).use = 1 ∧ (s.table i).ip ≠ zeroIp ∧
      s.latest (s.table i).ip = some (s.table i).mac
  distinct : ∀ i j, (s.table i).use ≠ 0 → (s.table j).use ≠ 0 →
    (s.table i).ip = (s.table j).ip → i = j
  nonzero : s.latest zeroIp = none

theorem inv_boot : boot.Inv where
  unused _ _ := rfl
  used _ taken := absurd rfl taken
  distinct _ _ taken := absurd rfl taken
  nonzero := rfl

theorem Inv.isMap {s : System} (inv : s.Inv) : s.IsMap where
  distinct i j usedI usedJ :=
    inv.distinct i j (by rw [usedI]; decide) (by rw [usedJ]; decide)
  found ip mac recorded inside := by
    have nonzero : ip ≠ zeroIp := by
      rintro rfl
      rw [inv.nonzero] at recorded
      cases recorded
    rcases arpTableSearch_cases s.table ip with ⟨i, same, result⟩ | ⟨none, _⟩
    · have taken : (s.table i).use ≠ 0 := fun free =>
        nonzero (same ▸ inv.unused i free)
      obtain ⟨use, _, current⟩ := inv.used i taken
      rw [same, recorded] at current
      exact ⟨i, result, use, (Option.some.inj current).symm⟩
    · obtain ⟨i, same⟩ := inside
      exact absurd same (none i)

/-- A recordable reply is written to one entry, either unused or already of its
sender, and no other entry in use is of its sender. -/
theorem Inv.update_eq {host : Host} {s : System} {label : Label} (inv : s.Inv)
    (recorded : Recorded host label.packet) (recordable : Recordable host s label) :
    ∃ i, ((s.table i).use = 0 ∨ (s.table i).ip = label.packet.srcIp) ∧
      (∀ j, j ≠ i → (s.table j).use ≠ 0 → (s.table j).ip ≠ label.packet.srcIp) ∧
      arpTableUpdate s.table label.packet = Function.update s.table i
        ⟨label.packet.srcIp, label.packet.srcMac, 1⟩ := by
  obtain ⟨nonzero, room⟩ := recordable recorded
  rcases arpTableUpdate_cases s.table label.packet with
    ⟨i, same, result⟩ | ⟨none, ⟨i, free, _, result⟩ | ⟨full, _⟩⟩
  · have taken : (s.table i).use ≠ 0 := fun free =>
      nonzero (same ▸ inv.unused i free)
    refine ⟨i, .inr same, fun j other takenJ again => ?_, ?_⟩
    · exact other (inv.distinct j i takenJ taken (again.trans same.symm))
    · simp only [result, same, (inv.used i taken).1]
  · exact ⟨i, .inl free, fun j _ _ => none j, result⟩
  · rcases room with ⟨i, same⟩ | ⟨i, free⟩
    · exact absurd same (none i)
    · exact absurd free (full i)

theorem Inv.record {s : System} {ip : Ip} {mac : Mac} {i : Fin arpTableMax}
    (inv : s.Inv) (nonzero : ip ≠ zeroIp)
    (alone : ∀ j, j ≠ i → (s.table j).use ≠ 0 → (s.table j).ip ≠ ip) :
    Inv ⟨Function.update s.table i ⟨ip, mac, 1⟩, (ip, mac) :: s.replies⟩ where
  unused j free := by
    by_cases here : j = i
    · subst here
      simp at free
    · simp only [Function.update_of_ne here] at free ⊢
      exact inv.unused j free
  used j taken := by
    by_cases here : j = i
    · subst here
      simp [latest, nonzero]
    · simp only [Function.update_of_ne here] at taken ⊢
      obtain ⟨use, other, current⟩ := inv.used j taken
      refine ⟨use, other, ?_⟩
      have differs := beq_false_of_ne (alone j here taken)
      simpa only [latest, List.lookup_cons, differs] using current
  distinct j k takenJ takenK same := by
    by_cases hereJ : j = i
    · by_cases hereK : k = i
      · rw [hereJ, hereK]
      · subst hereJ
        simp only [Function.update_self, Function.update_of_ne hereK] at takenK same
        exact absurd same.symm (alone k hereK takenK)
    · by_cases hereK : k = i
      · subst hereK
        simp only [Function.update_self, Function.update_of_ne hereJ] at takenJ same
        exact absurd same (alone j hereJ takenJ)
      · simp only [Function.update_of_ne hereJ, Function.update_of_ne hereK]
          at takenJ takenK same
        exact inv.distinct j k takenJ takenK same
  nonzero := by
    have differs : (zeroIp == ip) = false := beq_false_of_ne nonzero.symm
    simpa only [latest, List.lookup_cons, differs] using inv.nonzero

theorem Inv.step {host : Host} {s next : System} {label : Label} (inv : s.Inv)
    (recordable : Recordable host s label)
    (stepped : step host s label = some next) : next.Inv := by
  by_cases recorded : Recorded host label.packet
  · obtain ⟨i, _, alone, result⟩ := inv.update_eq recorded recordable
    rw [step_of_recorded recorded, result] at stepped
    cases stepped
    exact inv.record (recordable recorded).1 alone
  · rw [step_of_not_recorded recorded] at stepped
    cases stepped
    exact inv

theorem Inv.keepsOthers {host : Host} {s next : System} {label : Label}
    (inv : s.Inv) (recordable : Recordable host s label)
    (stepped : System.step host s label = some next) :
    KeepsOthers host s label next := by
  rintro recorded ip mac other ⟨j, use, same, hardware⟩
  obtain ⟨i, target, _, result⟩ := inv.update_eq recorded recordable
  rw [step_of_recorded recorded, result] at stepped
  cases stepped
  have elsewhere : j ≠ i := by
    rintro rfl
    rcases target with free | own
    · rw [use] at free
      exact absurd free (by decide)
    · exact other (same.symm.trans own)
  refine ⟨j, ?_⟩
  simp only [Function.update_of_ne elsewhere]
  exact ⟨use, same, hardware⟩

/-- In every sequence of packets whose recorded replies all come from another
address than 0.0.0.0 and find an entry of their sender or an unused one, the
table is a map to the latest sender after every packet and no recorded reply
changes what is stored for another address. -/
theorem isMap_of_run {host : Host} {labels : List Label} {last : System}
    (meets : LabelledRuns.RunMeets (System.step host) (Recordable host) boot labels)
    (ran : LabelledRuns.run (System.step host) boot labels = some last) :
    last.IsMap ∧
      ∀ first label middle next, first ++ [label] <+: labels →
        LabelledRuns.run (System.step host) boot first = some middle →
        System.step host middle label = some next →
        middle.IsMap ∧ KeepsOthers host middle label next := by
  have invariant {labels : List Label} {s : System}
      (meets : LabelledRuns.RunMeets (System.step host) (Recordable host) boot labels)
      (ran : LabelledRuns.run (System.step host) boot labels = some s) : s.Inv :=
    LabelledRuns.invariant_of_runMeets
      (fun inv recordable stepped => Inv.step inv recordable stepped) inv_boot meets ran
  refine ⟨(invariant meets ran).isMap, ?_⟩
  intro first label middle next before reached stepped
  have recordable := (LabelledRuns.runMeets_iff ran).mp meets first label middle next
    before reached stepped
  obtain ⟨rest, rfl⟩ := before
  rw [List.append_assoc, LabelledRuns.runMeets_append reached] at meets
  have inv := invariant meets.1 reached
  exact ⟨inv.isMap, inv.keepsOthers recordable stepped⟩

/-- This machine, at its address in `i8254.c`. -/
def qemuHost : Host where
  myIp := #v[10, 0, 1, 10]
  macAddr := #v[0x52, 0x54, 0, 0x12, 0x34, 0x56]

def senderIp (n : Nat) : Ip := #v[10, 0, 1, UInt8.ofNat n]

def senderMac (n : Nat) : Mac := #v[0x52, 0x54, 0, 0, 0, UInt8.ofNat n]

/-- A reply from 10.0.1.n. -/
def replyFrom (n : Nat) : ArpPkt where
  hrdType := arpHardwareType
  proType := arpProtocolType
  hrdLen := 6
  proLen := 4
  op := arpOpsReply
  srcMac := senderMac n
  srcIp := senderIp n
  dstMac := qemuHost.macAddr
  dstIp := qemuHost.myIp
  dstIpRest := #v[0, 0]

def replyLabel (n : Nat) : Label where
  packet := replyFrom n
  page := ⟨⟨qemuHost.macAddr, qemuHost.macAddr, #v[0, 0]⟩, replyFrom n⟩

theorem isMap_twoSenders :
    LabelledRuns.RunMeets (System.step qemuHost) (Recordable qemuHost) boot
        [replyLabel 1, replyLabel 2, replyLabel 1] ∧
      ∀ last, LabelledRuns.run (System.step qemuHost) boot
          [replyLabel 1, replyLabel 2, replyLabel 1] = some last →
        last.IsMap := by
  have meets : LabelledRuns.RunMeets (System.step qemuHost) (Recordable qemuHost) boot
      [replyLabel 1, replyLabel 2, replyLabel 1] := by
    decide +kernel
  exact ⟨meets, fun last ran => (isMap_of_run meets ran).1⟩

theorem recorded_replyFrom (n : Nat) : Recorded qemuHost (replyFrom n) :=
  ⟨rfl, rfl, rfl, rfl, rfl, rfl⟩

theorem senderIp_inj {m n : Nat} (boundM : m < 256) (boundN : n < 256)
    (same : senderIp m = senderIp n) : m = n := by
  have last : UInt8.ofNat m = UInt8.ofNat n := by
    simpa [senderIp] using congrArg (fun ip : Ip => ip[3]) same
  have values := congrArg UInt8.toNat last
  rwa [UInt8.toNat_ofNat', UInt8.toNat_ofNat', Nat.mod_eq_of_lt boundM,
    Nat.mod_eq_of_lt boundN] at values

/-- The first `n` entries are of the first `n` senders, the others unused. -/
def Filled (n : Nat) (table : Table) : Prop :=
  ∀ i : Fin arpTableMax, table i =
    if i.val < n then ⟨senderIp i, senderMac i, 1⟩ else .zero

theorem Filled.not_found {n : Nat} {table : Table} (filled : Filled n table)
    (bound : n ≤ 64) (i : Fin arpTableMax) :
    (table i).ip ≠ (replyFrom n).srcIp := by
  have below : i.val < 64 := i.isLt
  rw [filled i]
  split
  case isTrue inside =>
    intro same
    have := senderIp_inj (by omega) (by omega) same
    omega
  case isFalse =>
    intro same
    have first : (0 : UInt8) = 10 := congrArg (fun ip : Ip => ip[0]) same
    exact absurd first (by decide)

theorem Filled.update {n : Nat} {table : Table} (filled : Filled n table)
    (bound : n < 64) :
    Filled (n + 1) (arpTableUpdate table (replyFrom n)) := by
  rcases arpTableUpdate_cases table (replyFrom n) with
    ⟨i, same, _⟩ | ⟨_, ⟨i, free, first, result⟩ | ⟨full, _⟩⟩
  · exact absurd same (filled.not_found (by omega) i)
  · have here : i.val = n := by
      rcases Nat.lt_trichotomy i.val n with below | same | above
      · rw [filled i, if_pos below] at free
        exact absurd (show (1 : UInt8) = 0 from free) (by decide)
      · exact same
      · have used := first ⟨n, bound⟩ above
        rw [filled ⟨n, bound⟩, if_neg (lt_irrefl _)] at used
        exact absurd rfl used
    intro j
    rw [result]
    by_cases same : j = i
    · subst same
      rw [Function.update_self, if_pos (by omega), here]
      rfl
    · have other : j.val ≠ i.val := fun equal => same (Fin.ext equal)
      rw [Function.update_of_ne same, filled j]
      split <;> split <;> first | rfl | omega
  · have used := full ⟨n, bound⟩
    rw [filled ⟨n, bound⟩, if_neg (lt_irrefl _)] at used
    exact absurd rfl used

/-- The replies of the first `n` senders, the latest first. -/
def repliesOf (n : Nat) : List (Ip × Mac) :=
  ((List.range n).map fun k => (senderIp k, senderMac k)).reverse

theorem run_replies {n : Nat} (bound : n ≤ 64) :
    ∃ table, Filled n table ∧
      LabelledRuns.run (System.step qemuHost) boot ((List.range n).map replyLabel) =
        some ⟨table, repliesOf n⟩ := by
  induction n with
  | zero => exact ⟨boot.table, fun i => by simp [boot, Table.zero], rfl⟩
  | succ n ih =>
      obtain ⟨table, filled, ran⟩ := ih (by omega)
      refine ⟨arpTableUpdate table (replyFrom n), filled.update bound, ?_⟩
      rw [repliesOf, List.range_succ, List.map_append, List.map_append,
        LabelledRuns.run_append, ran, List.reverse_append]
      exact LabelledRuns.run_cons_eq_some.mpr
        ⟨_, step_of_recorded (recorded_replyFrom n), rfl⟩

theorem Filled.overwrite {table : Table} (filled : Filled 64 table) :
    arpTableUpdate table (replyFrom 64) =
      Function.update table 0 ⟨senderIp 0, senderMac 64, 1⟩ := by
  have used (i : Fin arpTableMax) : (table i).use ≠ 0 := by
    rw [filled i, if_pos i.isLt]
    exact (by decide : (1 : UInt8) ≠ 0)
  rcases arpTableUpdate_cases table (replyFrom 64) with
    ⟨i, same, _⟩ | ⟨_, ⟨i, free, _⟩ | ⟨_, result⟩⟩
  · exact absurd same (filled.not_found le_rfl i)
  · exact absurd free (used i)
  · rw [result, filled 0]
    rfl

/-- The 65th sender overwrites the hardware address of the first. -/
theorem sixtyFifthSender_overwrites :
    ∃ s next, LabelledRuns.run (System.step qemuHost) boot
        ((List.range 64).map replyLabel) = some s ∧
      System.step qemuHost s (replyLabel 64) = some next ∧
      s.Stored (senderIp 0) (senderMac 0) ∧
      next.latest (senderIp 0) = some (senderMac 0) ∧
      (next.table 0).ip = senderIp 0 ∧ (next.table 0).mac = senderMac 64 ∧
      ¬ KeepsOthers qemuHost s (replyLabel 64) next ∧ ¬ next.IsMap := by
  obtain ⟨table, filled, ran⟩ := run_replies (n := 64) le_rfl
  have first : table 0 = ⟨senderIp 0, senderMac 0, 1⟩ := filled 0
  have alone (i : Fin arpTableMax)
      (same : (Function.update table 0 ⟨senderIp 0, senderMac 64, 1⟩ i).ip = senderIp 0) :
      i = 0 := by
    by_contra elsewhere
    have below : i.val < 64 := i.isLt
    rw [Function.update_of_ne elsewhere, filled i, if_pos below] at same
    exact elsewhere (Fin.ext (senderIp_inj (by omega) (by decide) same))
  have differ : senderMac 64 ≠ senderMac 0 := by decide
  have recorded : Recorded qemuHost (replyLabel 64).packet := recorded_replyFrom 64
  have stepped := step_of_recorded (s := ⟨table, repliesOf 64⟩) recorded
  have overwritten : arpTableUpdate table (replyLabel 64).packet =
      Function.update table 0 ⟨senderIp 0, senderMac 64, 1⟩ := filled.overwrite
  rw [overwritten] at stepped
  have kept : Stored ⟨table, repliesOf 64⟩ (senderIp 0) (senderMac 0) := by
    refine ⟨0, ?_⟩
    simp only [first, and_self]
  have latest : List.lookup (senderIp 0) (repliesOf 65) = some (senderMac 0) := by
    decide +kernel
  refine ⟨_, _, ran, stepped, kept, latest, by simp, by simp, ?_, ?_⟩
  · intro keeps
    obtain ⟨i, _, same, hardware⟩ := keeps recorded (senderIp 0) (senderMac 0)
      (by decide) kept
    rw [alone i same] at hardware
    simp only [Function.update_self] at hardware
    exact differ hardware
  · intro isMap
    obtain ⟨i, result, _, hardware⟩ := isMap.found (senderIp 0) (senderMac 0) latest
      ⟨0, by simp⟩
    rcases arpTableSearch_cases _ (senderIp 0) with ⟨j, same, found⟩ | ⟨none, _⟩
    · have here : i = j := Fin.ext (Int.ofNat_inj.mp (result.symm.trans found))
      rw [here, alone j same] at hardware
      simp only [Function.update_self] at hardware
      exact differ hardware
    · exact absurd (by simp) (none 0)

end System

end Xv6.Arp
