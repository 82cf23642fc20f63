import Xv6.ArpTable
import Xv6.IcmpReplies
import Xv6.StateTriples

/-!
# Received frames and the page allocator

`eth_proc` passes a frame to `arp_proc` or to `ipv4_proc`, and from there it comes to
`icmp_proc` or `tcp_proc`.  Each of the three that answer takes a page from `kalloc`,
builds the answer in it, sends it and returns the page to `kfree`.  None looks whether
it got a page.
-/

namespace Xv6.Net

open ByteFields
open Tcp (Host)
open StateTriples

/-- What `kfree` takes: an address of a page behind the kernel and below `PHYSTOP`. -/
def Freeable (kernelEnd v : BitVec 32) : Prop :=
  v.toNat % 4096 = 0 ∧ kernelEnd ≤ v ∧ v - 0x80000000 < 0x20000000

instance (kernelEnd v : BitVec 32) : Decidable (Freeable kernelEnd v) :=
  inferInstanceAs (Decidable (_ ∧ _ ∧ _))

/-- `kmem` and the symbol `end`.  The pages in the list came from `kfree`. -/
structure Kmem where
  kernelEnd : BitVec 32
  positive : 0 < kernelEnd
  freelist : List (BitVec 32)
  freeable : ∀ page ∈ freelist, Freeable kernelEnd page

/-- The variables of the protocols. -/
structure Protocols where
  globals : Tcp.Globals
  ipId : Int
  arpTable : Arp.Table

/-- The protocols, the allocator, the pages by their addresses, the frames that were
sent and what `kalloc` returned. -/
structure System where
  net : Protocols
  kmem : Kmem
  pages : BitVec 32 → Tcp.Page
  sent : List Tcp.Sent
  kallocs : List (BitVec 32)

/-- What stops the kernel. -/
inductive Fault where
  | nullWrite
  | kfree

abbrev Handler := StateT System (Except Fault)

/-- `kalloc` -/
def Kmem.kalloc (kmem : Kmem) : BitVec 32 × Kmem :=
  match list : kmem.freelist with
  | [] => (0, kmem)
  | page :: rest =>
      (page, { kmem with
        freelist := rest
        freeable := fun other isFree =>
          kmem.freeable other (list ▸ List.mem_cons_of_mem page isFree) })

def kalloc : Handler (BitVec 32) := do
  let s ← get
  let (page, kmem) := s.kmem.kalloc
  set { s with kmem := kmem, kallocs := s.kallocs ++ [page] }
  pure page

/-- `kfree` fills the page and links it to the free list, or panics. -/
def kfree (v : BitVec 32) : Handler Unit := do
  let s ← get
  if accepted : Freeable s.kmem.kernelEnd v then
    set { s with
      kmem := { s.kmem with
        freelist := v :: s.kmem.freelist
        freeable := List.forall_mem_cons.mpr ⟨accepted, s.kmem.freeable⟩ }
      pages := Function.update s.pages v fun _ => 1 }
  else throw .kfree

/-- Something is written to the page at an address; a size comes back. -/
def writePage (addr : BitVec 32)
    (write : Tcp.Globals → Tcp.Page → Tcp.Globals × Tcp.Page × Nat) : Handler Nat := do
  let s ← get
  if addr = 0 then throw .nullWrite
  else
    let (globals, page, size) := write s.net.globals (s.pages addr)
    set { s with
      net := { s.net with globals := globals }
      pages := Function.update s.pages addr page }
    pure size

/-- `i8254_send` -/
def i8254Send (addr : BitVec 32) (size : Nat) : Handler Unit :=
  modify fun s => { s with sent := s.sent ++ [⟨s.pages addr, size⟩] }

def setGlobals (change : Tcp.Globals → Tcp.Globals) : Handler Unit :=
  modify fun s => { s with net := { s.net with globals := change s.net.globals } }

/-! ## TCP -/

/-- `tcp_pkt_create` and `i8254_send` -/
def sendSegment (host : Host) (recv : Tcp.Page) (sendAddr : BitVec 32)
    (pktType payloadSize : Nat) : Handler Unit := do
  let sendSize ← writePage sendAddr fun globals page =>
    Tcp.tcpPktCreate host globals recv page pktType payloadSize
  i8254Send sendAddr sendSize

/-- An acknowledgement and the response of `http_proc`. -/
def respond (host : Host) (recv : Tcp.Page) (sendAddr : BitVec 32) : Handler Unit := do
  sendSegment host recv sendAddr Tcp.codebitsAck 0
  let payloadSize ← writePage sendAddr fun globals page =>
    Tcp.httpProc globals page (Tcp.ethSize + Tcp.ipv4Size + Tcp.tcpSize)
  sendSegment host recv sendAddr (Tcp.codebitsAck ||| Tcp.codebitsPsh) payloadSize

/-- `tcp_proc` between `kalloc` and `kfree`. -/
def answerSegment (host : Host) (recv : Tcp.Page) (sendAddr : BitVec 32) : Handler Unit := do
  let s ← get
  let tcpP := Tcp.tcpOffset recv
  let codeBits := getByte recv (tcpP + 13)
  let payload := (List.range 3).map fun k => getByte recv (tcpP + 20 + k)
  if codeBits &&& Tcp.codebitsSyn ≠ 0 then
    sendSegment host recv sendAddr (Tcp.codebitsAck ||| Tcp.codebitsSyn) 0
    setGlobals fun globals => { globals with seqNum := (globals.seqNum + 1) % 2 ^ 32 }
  else if codeBits = Tcp.codebitsPsh ||| Tcp.codebitsAck then
    if payload ≠ Tcp.asciiBytes "GET" then respond host recv sendAddr
    else respond host recv sendAddr
    setGlobals fun globals => { globals with seqNum := (globals.seqNum + 1) % 2 ^ 32 }
  else if codeBits = Tcp.codebitsAck then
    if s.net.globals.finFlag = 1 then
      sendSegment host recv sendAddr Tcp.codebitsFin 0
      setGlobals fun globals => { globals with finFlag := 0 }

/-- `tcp_proc` -/
def tcpProc (host : Host) (recv : Tcp.Page) : Handler Unit := do
  let sendAddr ← kalloc
  answerSegment host recv sendAddr
  kfree sendAddr

/-! ## ICMP -/

/-- `icmp_reply_pkt_create` and `i8254_send` -/
def sendReply (host : Host) (recv : Tcp.Page) (sendAddr : BitVec 32) : Handler Unit := do
  let sendSize ← writePage sendAddr fun globals page =>
    let (sendId, page, size) := Tcp.icmpReplyPktCreate host globals.sendId recv page
    ({ globals with sendId := sendId }, page, size)
  i8254Send sendAddr sendSize

/-- `icmp_proc` -/
def icmpProc (host : Host) (recv : Tcp.Page) : Handler Unit := do
  let icmpP := Tcp.tcpOffset recv
  if getByte recv (icmpP + 1) = 0 then
    if getByte recv icmpP = Tcp.icmpTypeEchoRequest then
      let sendAddr ← kalloc
      sendReply host recv sendAddr
      kfree sendAddr

/-! ## ARP -/

/-- The bytes from an offset of the frame. -/
def bytesAt (recv : Tcp.Page) (offset n : Nat) : Vector UInt8 n :=
  Vector.ofFn fun k => UInt8.ofNat (getByte recv (offset + k))

/-- The packet behind the Ethernet header. -/
def arpPkt (recv : Tcp.Page) : Arp.ArpPkt where
  hrdType := UInt16.ofNat (getHalf recv 14)
  proType := UInt16.ofNat (getHalf recv 16)
  hrdLen := UInt8.ofNat (getByte recv 18)
  proLen := UInt8.ofNat (getByte recv 19)
  op := UInt16.ofNat (getHalf recv 20)
  srcMac := bytesAt recv 22 6
  srcIp := bytesAt recv 28 4
  dstMac := bytesAt recv 32 6
  dstIp := bytesAt recv 38 4
  dstIpRest := bytesAt recv 42 2

/-- `my_ip` -/
def myIp (host : Host) : Arp.Ip := Vector.ofFn host.myIp

/-- `arp_reply_pkt_create` -/
def arpReplyPktCreate (host : Host) (recv send : Tcp.Page) : Tcp.Page × Nat :=
  let sendSize := Tcp.ethSize + 30
  let send := setByte send 12 0x08
  let send := setByte send 13 0x06
  let send := Tcp.copyField send 0 recv 22 6
  let send := Tcp.storeField send 6 host.macAddr
  let send := setHalf send 14 Arp.arpHardwareType.toNat
  let send := setHalf send 16 Arp.arpProtocolType.toNat
  let send := setByte send 18 6
  let send := setByte send 19 4
  let send := setHalf send 20 Arp.arpOpsReply.toNat
  let send := Tcp.copyField send 32 recv 22 6
  let send := Tcp.copyField send 38 recv 28 4
  let send := Tcp.storeField send 22 host.macAddr
  let send := Tcp.storeField send 28 host.myIp
  (send, sendSize)

/-- `arp_reply_pkt_create` and `i8254_send` -/
def sendArpReply (host : Host) (recv : Tcp.Page) (send : BitVec 32) : Handler Unit := do
  let sendSize ← writePage send fun globals page =>
    (globals, arpReplyPktCreate host recv page)
  i8254Send send sendSize

/-- `arp_proc` -/
def arpProc (host : Host) (recv : Tcp.Page) : Handler Int := do
  let arpP := arpPkt recv
  if arpP.hrdType ≠ Arp.arpHardwareType then pure (-1)
  else if arpP.proType ≠ Arp.arpProtocolType then pure (-1)
  else if arpP.hrdLen ≠ 6 then pure (-1)
  else if arpP.proLen ≠ 4 then pure (-1)
  else if myIp host ≠ arpP.dstIp ∧ myIp host ≠ arpP.srcIp then pure (-1)
  else if arpP.op = Arp.arpOpsRequest ∧ myIp host = arpP.dstIp then
    let send ← kalloc
    sendArpReply host recv send
    kfree send
    pure Arp.arpCreatedReply
  else if arpP.op = Arp.arpOpsReply ∧ myIp host = arpP.dstIp then
    modify fun s =>
      { s with net := { s.net with arpTable := Arp.arpTableUpdate s.net.arpTable arpP } }
    pure Arp.arpUpdatedTable
  else pure (-1)

/-! ## IPv4 and Ethernet -/

/-- The field `id` of the IPv4 header, as the processor loads it. -/
def ipv4Id (recv : Tcp.Page) : Int := getHalf recv 18

/-- `ipv4_proc` -/
def ipv4Proc (host : Host) (recv : Tcp.Page) : Handler Unit := do
  let s ← get
  if s.net.ipId ≠ ipv4Id recv ∧ myIp host ≠ bytesAt recv 26 4 then
    set { s with net := { s.net with ipId := ipv4Id recv } }
    if getByte recv 23 = Tcp.ipv4TypeIcmp then icmpProc host recv
    else if getByte recv 23 = Tcp.ipv4TypeTcp then tcpProc host recv

/-- `eth_proc` -/
def ethProc (host : Host) (recv : Tcp.Page) : Handler Unit := do
  if getByte recv 12 = 0x08 ∧ getByte recv 13 = 0x06 then
    let _ ← arpProc host recv
  else if getByte recv 12 = 0x08 ∧ getByte recv 13 = 0x00 then ipv4Proc host recv

/-! ## What is asked of it -/

/-- The frame is handled without a write through a null pointer and without the panic of
`kfree`; if no page was to be had, the protocols are as before. -/
def Survives (host : Host) (recv : Tcp.Page) (s : System) : Prop :=
  wp (fun _ => False) (ethProc host recv)
    (fun _ t => 0 ∈ t.kallocs → t.net = s.net) { s with kallocs := [] }

/-- A request for the address of this machine. -/
def IsArpRequest (host : Host) (recv : Tcp.Page) : Prop :=
  (arpPkt recv).hrdType = Arp.arpHardwareType ∧ (arpPkt recv).proType = Arp.arpProtocolType ∧
    (arpPkt recv).hrdLen = 6 ∧ (arpPkt recv).proLen = 4 ∧
    (arpPkt recv).op = Arp.arpOpsRequest ∧ myIp host = (arpPkt recv).dstIp

/-- An echo request of ICMP, or any segment of TCP. -/
def IsAnswered (recv : Tcp.Page) : Prop :=
  getByte recv 23 = Tcp.ipv4TypeIcmp ∧ getByte recv (Tcp.tcpOffset recv + 1) = 0 ∧
      getByte recv (Tcp.tcpOffset recv) = Tcp.icmpTypeEchoRequest ∨
    getByte recv 23 = Tcp.ipv4TypeTcp

/-- The frames that a page is taken for. -/
def NeedsPage (host : Host) (net : Protocols) (recv : Tcp.Page) : Prop :=
  (getByte recv 12 = 0x08 ∧ getByte recv 13 = 0x06) ∧ IsArpRequest host recv ∨
    (getByte recv 12 = 0x08 ∧ getByte recv 13 = 0x00) ∧
      (net.ipId ≠ ipv4Id recv ∧ myIp host ≠ bytesAt recv 26 4) ∧ IsAnswered recv

/-! ## Programs that keep the allocator -/

/-- The allocator is as before. -/
def Kept (s t : System) : Prop := t.kmem = s.kmem ∧ t.kallocs = s.kallocs

/-- The program ends, and keeps the allocator. -/
def Keeps {Result : Type} (program : Handler Result) : Prop :=
  ∀ s, wp (fun _ => False) program (fun _ t => Kept s t) s

theorem Keeps.pure {Result : Type} (result : Result) :
    Keeps (Pure.pure result : Handler Result) :=
  fun _ => ⟨rfl, rfl⟩

theorem Keeps.bind {First Result : Type} {program : Handler First}
    {rest : First → Handler Result} (first : Keeps program)
    (others : ∀ result, Keeps (rest result)) :
    Keeps (program >>= rest) := by
  intro s
  rw [wp_bind]
  apply wp_mono (first s)
  intro result t kept
  apply wp_mono (others result t)
  intro _ u keptAgain
  exact ⟨keptAgain.1.trans kept.1, keptAgain.2.trans kept.2⟩

theorem Keeps.get : Keeps (get : Handler System) :=
  fun _ => ⟨rfl, rfl⟩

theorem Keeps.ite {Result : Type} {condition : Prop} [Decidable condition]
    {first second : Handler Result} (yes : Keeps first) (no : Keeps second) :
    Keeps (if condition then first else second) := by
  split
  · exact yes
  · exact no

theorem keeps_setGlobals (change : Tcp.Globals → Tcp.Globals) : Keeps (setGlobals change) :=
  fun _ => ⟨rfl, rfl⟩

theorem keeps_i8254Send (addr : BitVec 32) (size : Nat) : Keeps (i8254Send addr size) :=
  fun _ => ⟨rfl, rfl⟩

theorem keeps_writePage {addr : BitVec 32} (notNull : addr ≠ 0)
    (write : Tcp.Globals → Tcp.Page → Tcp.Globals × Tcp.Page × Nat) :
    Keeps (writePage addr write) := by
  intro s
  simp only [writePage, wp_bind, wp_get, if_neg notNull, wp_set, wp_pure]
  exact ⟨rfl, rfl⟩

theorem keeps_sendSegment (host : Host) (recv : Tcp.Page) {sendAddr : BitVec 32}
    (notNull : sendAddr ≠ 0) (pktType payloadSize : Nat) :
    Keeps (sendSegment host recv sendAddr pktType payloadSize) :=
  (keeps_writePage notNull _).bind fun _ => keeps_i8254Send _ _

theorem keeps_respond (host : Host) (recv : Tcp.Page) {sendAddr : BitVec 32}
    (notNull : sendAddr ≠ 0) : Keeps (respond host recv sendAddr) := by
  apply (keeps_sendSegment host recv notNull _ _).bind
  intro _
  apply (keeps_writePage notNull _).bind
  intro _
  exact keeps_sendSegment host recv notNull _ _

theorem keeps_answerSegment (host : Host) (recv : Tcp.Page) {sendAddr : BitVec 32}
    (notNull : sendAddr ≠ 0) : Keeps (answerSegment host recv sendAddr) := by
  have send := keeps_sendSegment host recv notNull
  have answer := keeps_respond host recv notNull
  apply Keeps.get.bind
  intro s
  apply Keeps.ite
  · exact (send _ _).bind fun _ => keeps_setGlobals _
  apply Keeps.ite
  · apply Keeps.ite
    · exact answer.bind fun _ => keeps_setGlobals _
    · exact answer.bind fun _ => keeps_setGlobals _
  apply Keeps.ite
  · apply Keeps.ite
    · exact (send _ _).bind fun _ => keeps_setGlobals _
    · exact Keeps.pure _
  · exact Keeps.pure _

theorem keeps_sendReply (host : Host) (recv : Tcp.Page) {sendAddr : BitVec 32}
    (notNull : sendAddr ≠ 0) : Keeps (sendReply host recv sendAddr) :=
  (keeps_writePage notNull _).bind fun _ => keeps_i8254Send _ _

theorem keeps_sendArpReply (host : Host) (recv : Tcp.Page) {send : BitVec 32}
    (notNull : send ≠ 0) : Keeps (sendArpReply host recv send) :=
  (keeps_writePage notNull _).bind fun _ => keeps_i8254Send _ _

/-! ## Taking a page and giving it back -/

theorem ne_zero_of_freeable {kmem : Kmem} {v : BitVec 32}
    (accepted : Freeable kmem.kernelEnd v) : v ≠ 0 := by
  rintro rfl
  have positive := BitVec.lt_def.mp kmem.positive
  have behind := BitVec.le_def.mp accepted.2.1
  omega

/-- With a page in the free list, a handler gets one and can give it back. -/
theorem wp_page {s : System} {answer : BitVec 32 → Handler Unit} {post : Unit → System → Prop}
    (available : s.kmem.freelist ≠ []) (keeps : ∀ page, page ≠ 0 → Keeps (answer page))
    (ends : ∀ page t, page ≠ 0 → t.kallocs = s.kallocs ++ [page] → post () t) :
    wp (fun _ => False) kalloc (fun page t =>
      wp (fun _ => False) (answer page)
        (fun _ t => wp (fun _ => False) (kfree page) post t) t) s := by
  simp only [kalloc, wp_bind, wp_get, wp_set, wp_pure]
  unfold Kmem.kalloc
  split
  case h_1 empty => exact absurd empty available
  case h_2 page rest list =>
    have accepted : Freeable s.kmem.kernelEnd page :=
      s.kmem.freeable page (list ▸ List.mem_cons_self)
    have notNull := ne_zero_of_freeable accepted
    apply wp_mono (keeps page notNull _)
    rintro _ t ⟨kmem, kallocs⟩
    have acceptedAgain : Freeable t.kmem.kernelEnd page := by
      rw [kmem]
      exact accepted
    simp only [kfree, wp_bind, wp_get, dif_pos acceptedAgain, wp_set]
    exact ends page _ notNull kallocs

/-- Without one, the handler writes through the null pointer or `kfree` panics. -/
theorem fails_page {s : System} {answer : BitVec 32 → Handler Unit}
    {post : Unit → System → Prop} (empty : s.kmem.freelist = []) :
    wp (fun _ => True) kalloc (fun page t =>
      wp (fun _ => True) (answer page)
        (fun _ t => wp (fun _ => True) (kfree page) post t) t) s := by
  simp only [kalloc, wp_bind, wp_get, wp_set, wp_pure]
  unfold Kmem.kalloc
  split
  case h_1 =>
    simp only
    unfold wp
    split
    case h_1 t _ =>
      have refused : ¬Freeable t.kmem.kernelEnd 0 := fun accepted =>
        ne_zero_of_freeable accepted rfl
      change wp (fun _ => True) (kfree 0) post t
      simp only [kfree, wp_bind, wp_get, dif_neg refused, wp_throw]
    case h_2 => trivial
  case h_2 page rest list =>
    rw [empty] at list
    cases list

/-- A program that is sure to fail does not end. -/
theorem not_wp_of_fails {Result : Type} {program : Handler Result} {s : System}
    {post : Result → System → Prop} (fails : wp (fun _ => True) program (fun _ _ => False) s) :
    ¬wp (fun _ => False) program post s := by
  unfold wp at *
  split at fails
  case h_1 => exact fails.elim
  case h_2 => exact id

/-! ## The handlers -/

/-- No page was refused so far. -/
def Served (s : System) : Prop := 0 ∉ s.kallocs

theorem served_append {s t : System} {page : BitVec 32} (served : Served s) (notNull : page ≠ 0)
    (kallocs : t.kallocs = s.kallocs ++ [page]) : Served t := by
  rw [Served, kallocs, List.mem_append, List.mem_singleton, not_or]
  exact ⟨served, notNull.symm⟩

section Handlers

variable (host : Host) (recv : Tcp.Page) {s : System}

theorem tcpProc_survives (served : Served s) (available : s.kmem.freelist ≠ []) :
    wp (fun _ => False) (tcpProc host recv) (fun _ t => Served t) s := by
  simp only [tcpProc, wp_bind]
  exact wp_page available (fun page notNull => keeps_answerSegment host recv notNull)
    fun page t notNull kallocs => served_append served notNull kallocs

theorem tcpProc_fails {post : Unit → System → Prop} (empty : s.kmem.freelist = []) :
    wp (fun _ => True) (tcpProc host recv) post s := by
  simp only [tcpProc, wp_bind]
  exact fails_page empty

theorem icmpProc_survives (served : Served s)
    (covered : s.kmem.freelist ≠ [] ∨ ¬(getByte recv (Tcp.tcpOffset recv + 1) = 0 ∧
      getByte recv (Tcp.tcpOffset recv) = Tcp.icmpTypeEchoRequest)) :
    wp (fun _ => False) (icmpProc host recv) (fun _ t => Served t) s := by
  unfold icmpProc
  simp only
  split
  case isTrue code =>
    split
    case isTrue type =>
      simp only [wp_bind]
      have available : s.kmem.freelist ≠ [] :=
        covered.resolve_right fun other => other ⟨code, type⟩
      exact wp_page available (fun page notNull => keeps_sendReply host recv notNull)
        fun page t notNull kallocs => served_append served notNull kallocs
    case isFalse => exact served
  case isFalse => exact served

theorem icmpProc_fails {post : Unit → System → Prop} (empty : s.kmem.freelist = [])
    (code : getByte recv (Tcp.tcpOffset recv + 1) = 0)
    (type : getByte recv (Tcp.tcpOffset recv) = Tcp.icmpTypeEchoRequest) :
    wp (fun _ => True) (icmpProc host recv) post s := by
  unfold icmpProc
  simp only [if_pos code, if_pos type, wp_bind]
  exact fails_page empty

theorem ipv4Proc_survives (served : Served s)
    (covered : s.kmem.freelist ≠ [] ∨
      ¬((s.net.ipId ≠ ipv4Id recv ∧ myIp host ≠ bytesAt recv 26 4) ∧ IsAnswered recv)) :
    wp (fun _ => False) (ipv4Proc host recv) (fun _ t => Served t) s := by
  unfold ipv4Proc
  rw [wp_bind, wp_get]
  split
  case isTrue fresh =>
    rw [wp_bind, wp_set]
    split
    case isTrue icmp =>
      apply icmpProc_survives
      · exact served
      · exact covered.imp_right fun other answered =>
          other ⟨fresh, .inl ⟨icmp, answered⟩⟩
    case isFalse =>
      split
      case isTrue tcp =>
        apply tcpProc_survives
        · exact served
        · exact covered.resolve_right fun other => other ⟨fresh, .inr tcp⟩
      case isFalse => exact served
  case isFalse => exact served

theorem ipv4Proc_fails {post : Unit → System → Prop} (empty : s.kmem.freelist = [])
    (fresh : s.net.ipId ≠ ipv4Id recv ∧ myIp host ≠ bytesAt recv 26 4)
    (answered : IsAnswered recv) : wp (fun _ => True) (ipv4Proc host recv) post s := by
  unfold ipv4Proc
  rw [wp_bind, wp_get, if_pos fresh, wp_bind, wp_set]
  rcases answered with ⟨icmp, code, type⟩ | tcp
  · rw [if_pos icmp]
    exact icmpProc_fails host recv empty code type
  · have notIcmp : getByte recv 23 ≠ Tcp.ipv4TypeIcmp := by
      rw [tcp]
      decide
    rw [if_neg notIcmp, if_pos tcp]
    exact tcpProc_fails host recv empty

theorem arpProc_survives (served : Served s)
    (covered : s.kmem.freelist ≠ [] ∨ ¬IsArpRequest host recv) :
    wp (fun _ => False) (arpProc host recv) (fun _ t => Served t) s := by
  unfold arpProc
  simp only
  split
  · exact served
  split
  · exact served
  split
  · exact served
  split
  · exact served
  split
  · exact served
  split
  case isTrue request =>
    simp only [wp_bind, wp_pure]
    have available : s.kmem.freelist ≠ [] := by
      apply covered.resolve_right
      intro other
      refine other ⟨?_, ?_, ?_, ?_, request.1, request.2⟩ <;> apply not_not.mp <;> assumption
    exact wp_page available (fun page notNull => keeps_sendArpReply host recv notNull)
      fun page t notNull kallocs => served_append served notNull kallocs
  case isFalse =>
    split
    · exact served
    · exact served

theorem arpProc_fails {post : Int → System → Prop} (empty : s.kmem.freelist = [])
    (request : IsArpRequest host recv) : wp (fun _ => True) (arpProc host recv) post s := by
  obtain ⟨hrdType, proType, hrdLen, proLen, op, dstIp⟩ := request
  unfold arpProc
  simp only [hrdType, proType, hrdLen, proLen, op, dstIp, ne_eq, not_true_eq_false, if_false,
    false_and, true_and, if_true, wp_bind]
  exact fails_page empty

end Handlers

/-- A frame is survived exactly if there is a free page or none is taken for it. -/
theorem survives_iff (host : Host) (recv : Tcp.Page) (s : System) :
    Survives host recv s ↔ s.kmem.freelist ≠ [] ∨ ¬NeedsPage host s.net recv := by
  constructor
  · intro survives
    by_contra uncovered
    rw [not_or, not_not, not_not] at uncovered
    obtain ⟨empty, needs⟩ := uncovered
    refine not_wp_of_fails ?_ survives
    unfold ethProc
    rcases needs with ⟨arp, request⟩ | ⟨ipv4, fresh, answered⟩
    · rw [if_pos arp, wp_bind]
      exact arpProc_fails host recv empty request
    · have notArp : ¬(getByte recv 12 = 0x08 ∧ getByte recv 13 = 0x06) := by
        rw [ipv4.2]
        exact fun arp => absurd arp.2 (by decide)
      rw [if_neg notArp, if_pos ipv4]
      exact ipv4Proc_fails host recv empty fresh answered
  · intro covered
    have served : Served { s with kallocs := [] } := List.not_mem_nil
    have ends : wp (fun _ => False) (ethProc host recv) (fun _ t => Served t)
        { s with kallocs := [] } := by
      unfold ethProc
      split
      case isTrue arp =>
        rw [wp_bind]
        exact arpProc_survives host recv served
          (covered.imp_right fun other request => other (.inl ⟨arp, request⟩))
      case isFalse =>
        split
        case isTrue ipv4 =>
          apply ipv4Proc_survives host recv served
          exact covered.imp_right fun other answered => other (.inr ⟨ipv4, answered⟩)
        case isFalse => exact served
    exact wp_mono ends fun _ _ stillServed refused => absurd refused stillServed

/-- A segment of TCP from 10.0.1.3. -/
def segmentFrame : Tcp.Page :=
  let page := Tcp.System.segment 5 Tcp.codebitsAck 0
  let page := setByte (setByte page 12 0x08) 23 Tcp.ipv4TypeTcp
  setByte (setByte (setByte page 26 10) 28 1) 29 3

/-- The state at boot, but without a free page. -/
def exhausted : System where
  net := { globals := ⟨0, 0, 0⟩, ipId := -1, arpTable := Arp.Table.zero }
  kmem :=
    { kernelEnd := 0x80200000
      positive := by decide
      freelist := []
      freeable := nofun }
  pages := fun _ _ => 1
  sent := []
  kallocs := []

/-- An acknowledgement that needs no answer stops the kernel there. -/
theorem segmentFrame_fatal : ¬Survives Tcp.System.qemuHost segmentFrame exhausted := by
  apply not_wp_of_fails
  unfold ethProc
  rw [if_neg (by decide), if_pos (by decide)]
  exact ipv4Proc_fails _ _ rfl (by decide) (.inr (by decide))

end Xv6.Net
