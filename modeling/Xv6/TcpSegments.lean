import Xv6.ByteFields
import Xv6.LabelledRuns
import Mathlib.Algebra.BigOperators.Group.List.Basic
import Mathlib.Tactic.Ring

/-!
# Sequence and acknowledgement numbers

`tcp_proc` answers a received segment with the segments that `tcp_pkt_create`
builds in a fresh page.  The sequence number is the counter `seq_num`, put in
network order by `H2N_uint`, which moves half-bytes where it should move bytes;
the acknowledgement number is the received sequence number with one added to
its last octet, without a carry and whatever the segment carried; and the
counter grows by one for a whole response.
-/

namespace Xv6.Tcp

open ByteFields

/-- A page that holds a frame. -/
abbrev Page := Bytes 4096

def h2nUshort (value : Nat) : Nat :=
  (((value % 2 ^ 16 &&& 0xFF) <<< 8) + ((value % 2 ^ 16) >>> 8)) % 2 ^ 16

def n2hUshort (value : Nat) : Nat :=
  (((value % 2 ^ 16 &&& 0xFF) <<< 8) + ((value % 2 ^ 16) >>> 8)) % 2 ^ 16

def h2nUint (value : Nat) : Nat :=
  (((value &&& 0xF) <<< 24) + ((value &&& 0xF0) <<< 8) + ((value &&& 0xF00) >>> 8) +
    ((value &&& 0xF000) >>> 24)) % 2 ^ 32

/-- `memmove` from one page to another. -/
def copyField (dst : Page) (dstOffset : Nat) (src : Page) (srcOffset n : Nat) : Page :=
  (List.range n).foldl
    (fun page k => setByte page (dstOffset + k) (getByte src (srcOffset + k))) dst

/-- `memmove` from an array of bytes. -/
def storeField {n : Nat} (dst : Page) (dstOffset : Nat) (src : Bytes n) : Page :=
  (List.range n).foldl
    (fun page k => setByte page (dstOffset + k) (getByte src k)) dst

/-- The sizes of `struct eth_pkt`, `struct ipv4_pkt` and `struct tcp_pkt`. -/
abbrev ethSize : Nat := 14

abbrev ipv4Size : Nat := 20

abbrev tcpSize : Nat := 20

abbrev codebitsAck : Nat := 0x10
abbrev codebitsPsh : Nat := 0x8
abbrev codebitsSyn : Nat := 0x2
abbrev codebitsFin : Nat := 0x1
abbrev ipv4TypeTcp : Nat := 0x6

/-- The two bytes at an offset, the first as the high one. -/
def be16 (page : Page) (offset : Nat) : Nat :=
  256 * getByte page offset + getByte page (offset + 1)

/-- The four bytes at an offset in network order. -/
def be32 (page : Page) (offset : Nat) : Nat :=
  65536 * be16 page offset + be16 page (offset + 2)

/-- The loop of `ipv4_chksum`, with its end-around carry. -/
def ipv4Chksum (page : Page) : Nat :=
  let len := (getByte page ethSize &&& 0xF) * 2
  let chkSum := (List.range len).foldl
    (fun chkSum i =>
      let chkSum := chkSum + be16 page (ethSize + i * 2)
      if chkSum > 0xFFFF then (chkSum &&& 0xFFFF) + 1 else chkSum) 0
  (2 ^ 32 - 1 - chkSum) % 2 ^ 16

/-- `my_ip` and `mac_addr`. -/
structure Host where
  myIp : Bytes 4
  macAddr : Bytes 6

/-- `tcp_chksum`; the pseudo header has the sender's address twice. -/
def tcpChksum (host : Host) (page : Page) : Nat :=
  let tcpLen := (n2hUshort (getHalf page 16) + 2 ^ 32 - ipv4Size) % 2 ^ 16
  let dummy :=
    256 * getByte host.myIp 0 + getByte host.myIp 1 +
      (256 * getByte host.myIp 2 + getByte host.myIp 3) +
      be16 page 26 + be16 page 28 + ipv4TypeTcp + tcpLen
  let chkSum := (List.range (tcpLen / 2)).foldl
    (fun chkSum i => (chkSum + be16 page (ethSize + ipv4Size + i * 2)) % 2 ^ 32) dummy
  let chkSum := (chkSum + (chkSum >>> 16)) % 2 ^ 32
  (2 ^ 32 - 1 - chkSum) % 2 ^ 16

/-- The counters `seq_num` and `send_id` and the flag `fin_flag`. -/
structure Globals where
  seqNum : Nat
  sendId : Nat
  finFlag : Nat

/-- The offset of the TCP header: `(ver&0xF)*4` after the start of the IPv4
header. -/
def tcpOffset (page : Page) : Nat :=
  ethSize + (getByte page ethSize &&& 0xF) * 4

/-- `tcp_pkt_create`: the page with the segment, and its size. -/
def tcpPktCreate (host : Host) (globals : Globals) (recv send : Page)
    (pktType payloadSize : Nat) : Globals × Page × Nat :=
  let tcpRecv := tcpOffset recv
  let sendSize := ethSize + ipv4Size + tcpSize + payloadSize
  let send := copyField send 0 recv 6 6
  let send := storeField send 6 host.macAddr
  let send := setByte send 12 0x08
  let send := setByte send 13 0x00
  let send := setByte send 14 ((4 <<< 4) + (ipv4Size / 4 &&& 0xF))
  let send := setByte send 15 0
  let send := setHalf send 16 (h2nUshort (ipv4Size + tcpSize + payloadSize))
  let send := setHalf send 18 globals.sendId
  let globals := { globals with sendId := (globals.sendId + 1) % 2 ^ 16 }
  let send := setHalf send 20 (h2nUshort 0x0000)
  let send := setByte send 22 255
  let send := setByte send 23 ipv4TypeTcp
  let send := storeField send 26 host.myIp
  let send := copyField send 30 recv 26 4
  let send := setHalf send 24 0
  let send := setHalf send 24 (h2nUshort (ipv4Chksum send))
  let send := setHalf send 34 (getHalf recv (tcpRecv + 2))
  let send := setHalf send 36 (getHalf recv tcpRecv)
  let send := setWord send 38 (h2nUint globals.seqNum)
  let send := setWord send 42 ((getWord recv (tcpRecv + 4) + 1 <<< (8 * 3)) % 2 ^ 32)
  let send := setByte send 46 0
  let send := setByte send 47 0
  let send := setByte send 46 (5 <<< 4)
  let send := setByte send 47 pktType
  let send := setHalf send 48 (h2nUshort 14480)
  let send := setHalf send 52 0
  let send := setHalf send 50 0
  let send := setHalf send 50 (h2nUshort (tcpChksum host send + 8))
  (globals, send, sendSize)

/-- `http_strcpy`, up to the terminating zero; it returns the length. -/
def httpStrcpy (dst : Page) (offset : Nat) (src : List Nat) (startIndex : Nat) :
    Page × Nat :=
  (src.zipIdx.foldl
    (fun page entry => setByte page (offset + startIndex + entry.2) entry.1) dst,
    src.length)

def asciiBytes (text : String) : List Nat :=
  text.toList.map Char.toNat

/-- `http_proc`: the response is written at `send`, and `tcp_fin` sets the
flag. -/
def httpProc (globals : Globals) (page : Page) (send : Nat) : Globals × Page × Nat :=
  let (page, len) := httpStrcpy page send (asciiBytes "HTTP/1.0 200 OK \r\n") 0
  let (page, more) := httpStrcpy page send (asciiBytes "Content-Type: text/html \r\n") len
  let len := len + more
  let (page, more) := httpStrcpy page send (asciiBytes "\r\nHello World!\r\n") len
  let len := len + more
  let page := if len % 2 ≠ 0 then setByte page (send + len) 0 else page
  ({ globals with finFlag := 1 }, page, len)

/-- A frame passed to `i8254_send`: the page and the number of bytes. -/
structure Sent where
  page : Page
  size : Nat

/-- The answer to a segment with data: an acknowledgement and a response. -/
def respond (host : Host) (globals : Globals) (recv page : Page) : Globals × List Sent :=
  let (globals, page, sendSize) := tcpPktCreate host globals recv page codebitsAck 0
  let first : Sent := ⟨page, sendSize⟩
  let (globals, page, payloadSize) :=
    httpProc globals page (ethSize + ipv4Size + tcpSize)
  let (globals, page, sendSize) :=
    tcpPktCreate host globals recv page (codebitsAck ||| codebitsPsh) payloadSize
  (globals, [first, ⟨page, sendSize⟩])

/-- `tcp_proc`, given the page that `kalloc` returns. -/
def tcpProc (host : Host) (globals : Globals) (recv page : Page) : Globals × List Sent :=
  let tcpP := tcpOffset recv
  let codeBits := getByte recv (tcpP + 13)
  let payload := (List.range 3).map fun k => getByte recv (tcpP + 20 + k)
  if codeBits &&& codebitsSyn ≠ 0 then
    let (globals, page, sendSize) :=
      tcpPktCreate host globals recv page (codebitsAck ||| codebitsSyn) 0
    ({ globals with seqNum := (globals.seqNum + 1) % 2 ^ 32 }, [⟨page, sendSize⟩])
  else if codeBits = codebitsPsh ||| codebitsAck then
    let (globals, sent) :=
      if payload ≠ asciiBytes "GET" then respond host globals recv page
      else respond host globals recv page
    ({ globals with seqNum := (globals.seqNum + 1) % 2 ^ 32 }, sent)
  else if codeBits = codebitsAck then
    if globals.finFlag = 1 then
      let (globals, page, sendSize) := tcpPktCreate host globals recv page codebitsFin 0
      ({ globals with finFlag := 0 }, [⟨page, sendSize⟩])
    else (globals, [])
  else (globals, [])

/-! ## Segments as their receivers read them -/

/-- The sequence number of a segment, in network order. -/
def seqOf (page : Page) : Nat :=
  be32 page (tcpOffset page + 4)

def ackOf (page : Page) : Nat :=
  be32 page (tcpOffset page + 8)

def flagsOf (page : Page) : Nat :=
  getByte page (tcpOffset page + 13)

/-- What is left of the datagram after the two headers. -/
def payloadLength (page : Page) : Nat :=
  be16 page 16 - (getByte page ethSize &&& 0xF) * 4 -
    (getByte page (tcpOffset page + 12) >>> 4) * 4

/-- The sequence space that a segment occupies. -/
def occupied (page : Page) : Nat :=
  (if flagsOf page &&& codebitsSyn ≠ 0 then 1 else 0) +
    (if flagsOf page &&& codebitsFin ≠ 0 then 1 else 0) + payloadLength page

/-! ## What `tcp_pkt_create` writes -/

theorem getByte_foldl_setByte {α : Type} (entries : List α) (offset value : α → Nat)
    (page : Page) {at' : Nat}
    (outside : ∀ entry ∈ entries, offset entry < 4096 ∧ at' ≠ offset entry) :
    getByte (entries.foldl (fun page entry => setByte page (offset entry) (value entry)) page)
      at' = getByte page at' := by
  induction entries generalizing page with
  | nil => rfl
  | cons entry rest ih =>
      have here := outside entry List.mem_cons_self
      rw [List.foldl_cons, ih _ fun entry member =>
        outside entry (List.mem_cons_of_mem _ member),
        getByte_setByte _ _ _ _ here.1, if_neg here.2]

theorem getByte_copyField (dst src : Page) {dstOffset srcOffset n at' : Nat}
    (room : dstOffset + n ≤ 4096) (outside : at' < dstOffset ∨ dstOffset + n ≤ at') :
    getByte (copyField dst dstOffset src srcOffset n) at' = getByte dst at' := by
  apply getByte_foldl_setByte
  intro k inside
  have below := List.mem_range.mp inside
  omega

theorem getByte_storeField {n : Nat} (dst : Page) (src : Bytes n) {dstOffset at' : Nat}
    (room : dstOffset + n ≤ 4096) (outside : at' < dstOffset ∨ dstOffset + n ≤ at') :
    getByte (storeField dst dstOffset src) at' = getByte dst at' := by
  apply getByte_foldl_setByte
  intro k inside
  have below := List.mem_range.mp inside
  omega

section Created

variable (host : Host) (globals : Globals) (recv send : Page) (pktType payloadSize : Nat)

/-- The page that `tcp_pkt_create` leaves. -/
def created : Page :=
  (tcpPktCreate host globals recv send pktType payloadSize).2.1

theorem created_ver :
    getByte (created host globals recv send pktType payloadSize) 14 = 69 := by
  simp (disch := omega) only [created, tcpPktCreate, getByte_setHalf_of_outside,
    getByte_setWord_of_outside, getByte_copyField, getByte_storeField, getByte_setByte]
  rfl

theorem created_headerLength :
    getByte (created host globals recv send pktType payloadSize) 46 = 80 := by
  simp (disch := omega) only [created, tcpPktCreate, getByte_setHalf_of_outside,
    getByte_setByte]
  rfl

theorem created_flags :
    getByte (created host globals recv send pktType payloadSize) 47 = pktType % 256 := by
  simp (disch := omega) only [created, tcpPktCreate, getByte_setHalf_of_outside,
    getByte_setByte]
  rfl

theorem created_totalLen {k : Nat} (inside : k < 2) :
    getByte (created host globals recv send pktType payloadSize) (16 + k) =
      h2nUshort (40 + payloadSize) / 256 ^ k % 256 := by
  simp (disch := omega) only [created, tcpPktCreate, getByte_setHalf_of_outside,
    getByte_setWord_of_outside, getByte_copyField, getByte_storeField,
    getByte_setByte_of_ne, getByte_setHalf]
  rfl

theorem created_seq {k : Nat} (inside : k < 4) :
    getByte (created host globals recv send pktType payloadSize) (38 + k) =
      h2nUint globals.seqNum / 256 ^ k % 256 := by
  simp (disch := omega) only [created, tcpPktCreate, getByte_setHalf_of_outside,
    getByte_setWord_of_outside, getByte_setByte_of_ne, getByte_setWord]

theorem created_ack {k : Nat} (inside : k < 4) :
    getByte (created host globals recv send pktType payloadSize) (42 + k) =
      (getWord recv (tcpOffset recv + 4) + 2 ^ 24) % 2 ^ 32 / 256 ^ k % 256 := by
  simp (disch := omega) only [created, tcpPktCreate, getByte_setHalf_of_outside,
    getByte_setByte_of_ne, getByte_setWord]
  rfl

theorem tcpOffset_created :
    tcpOffset (created host globals recv send pktType payloadSize) = 34 := by
  rw [tcpOffset, created_ver]
  rfl

theorem flagsOf_created :
    flagsOf (created host globals recv send pktType payloadSize) = pktType % 256 := by
  rw [flagsOf, tcpOffset_created, created_flags]

/-- The half-bytes that `H2N_uint` moves make a right number below 16 only. -/
theorem seqOf_created (small : globals.seqNum < 16) :
    seqOf (created host globals recv send pktType payloadSize) = globals.seqNum := by
  have byte (k : Nat) (inside : k < 4) := created_seq host globals recv send pktType
    payloadSize inside
  rw [seqOf, tcpOffset_created, be32, be16, be16, byte 0 (by decide), byte 1 (by decide),
    byte 2 (by decide), byte 3 (by decide)]
  generalize globals.seqNum = n at small
  interval_cases n <;> decide

/-- The four bytes of a word are its digits in base 256. -/
theorem digits_of_word {a b c d : Nat} (first : a < 256) (second : b < 256)
    (third : c < 256) (fourth : d < 256) :
    (a + 256 * b + 65536 * (c + 256 * d)) / 256 ^ 0 % 256 = a ∧
      (a + 256 * b + 65536 * (c + 256 * d)) / 256 ^ 1 % 256 = b ∧
      (a + 256 * b + 65536 * (c + 256 * d)) / 256 ^ 2 % 256 = c ∧
      (a + 256 * b + 65536 * (c + 256 * d)) / 256 ^ 3 % 256 = d := by
  refine ⟨?_, ?_, ?_, ?_⟩ <;> omega

/-- The acknowledgement adds one to the last octet of the received number. -/
theorem ackOf_created :
    ackOf (created host globals recv send pktType payloadSize) =
      seqOf recv / 256 * 256 + (seqOf recv + 1) % 256 := by
  have byte (k : Nat) (inside : k < 4) := created_ack host globals recv send pktType
    payloadSize inside
  have first := getByte_lt recv (tcpOffset recv + 4)
  have second := getByte_lt recv (tcpOffset recv + 4 + 1)
  have third := getByte_lt recv (tcpOffset recv + 4 + 2)
  have fourth := getByte_lt recv (tcpOffset recv + 4 + 2 + 1)
  rw [ackOf, tcpOffset_created, be32, be16, be16, byte 0 (by decide), byte 1 (by decide),
    byte 2 (by decide), byte 3 (by decide), seqOf, be32, be16, be16, getWord, getHalf, getHalf]
  generalize getByte recv (tcpOffset recv + 4) = a at *
  generalize getByte recv (tcpOffset recv + 4 + 1) = b at *
  generalize getByte recv (tcpOffset recv + 4 + 2) = c at *
  generalize getByte recv (tcpOffset recv + 4 + 2 + 1) = d at *
  have word : (a + 256 * b + 65536 * (c + 256 * d) + 2 ^ 24) % 2 ^ 32 =
      a + 256 * b + 65536 * (c + 256 * ((d + 1) % 256)) := by
    omega
  obtain ⟨one, two, three, four⟩ :=
    digits_of_word first second third (Nat.mod_lt (d + 1) (by decide : 256 > 0))
  rw [word, one, two, three, four]
  have high : (65536 * (256 * a + b) + (256 * c + d)) / 256 = 65536 * a + 256 * b + c := by
    omega
  have last : (65536 * (256 * a + b) + (256 * c + d) + 1) % 256 = (d + 1) % 256 := by
    omega
  rw [high, last]
  ring

theorem h2nUshort_swap {value : Nat} (small : value < 65536) :
    256 * (h2nUshort value % 256) + h2nUshort value / 256 % 256 = value := by
  have low : value &&& 0xFF = value % 256 := Nat.and_two_pow_sub_one_eq_mod value 8
  rw [h2nUshort, Nat.mod_eq_of_lt (by omega : value < 2 ^ 16), low, Nat.shiftLeft_eq,
    Nat.shiftRight_eq_div_pow]
  have high : value / 2 ^ 8 < 256 := by omega
  have rest : value % 256 < 256 := Nat.mod_lt _ (by decide)
  have parts : value = 256 * (value / 2 ^ 8) + value % 256 := by omega
  generalize value / 2 ^ 8 = q at *
  generalize value % 256 = r at *
  have whole : (r * 2 ^ 8 + q) % 2 ^ 16 = r * 2 ^ 8 + q := Nat.mod_eq_of_lt (by omega)
  have bottom : (r * 2 ^ 8 + q) % 256 = q := by omega
  have top : (r * 2 ^ 8 + q) / 256 % 256 = r := by omega
  rw [whole, bottom, top, parts]

theorem payloadLength_created (small : payloadSize < 65496) :
    payloadLength (created host globals recv send pktType payloadSize) = payloadSize := by
  have byte (k : Nat) (inside : k < 2) := created_totalLen host globals recv send pktType
    payloadSize inside
  have total : be16 (created host globals recv send pktType payloadSize) 16 =
      40 + payloadSize := by
    rw [be16, byte 0 (by decide), byte 1 (by decide), Nat.pow_zero, Nat.div_one, Nat.pow_one,
      h2nUshort_swap (by omega)]
  rw [payloadLength, total, created_ver, tcpOffset_created, created_headerLength]
  simp only [show (69 &&& 0xF) * 4 = 20 from rfl, show (80 >>> 4) * 4 = 20 from rfl]
  omega

end Created

theorem tcpPktCreate_eq (host : Host) (globals : Globals) (recv send : Page)
    (pktType payloadSize : Nat) :
    tcpPktCreate host globals recv send pktType payloadSize =
      ({ globals with sendId := (globals.sendId + 1) % 2 ^ 16 },
        created host globals recv send pktType payloadSize, 54 + payloadSize) :=
  rfl

theorem httpProc_eq (globals : Globals) (page : Page) (send : Nat) :
    ∃ page', httpProc globals page send = ({ globals with finFlag := 1 }, page', 60) :=
  ⟨_, rfl⟩

/-! ## Sequences of received segments -/

/-- A segment that was sent and the received one that it answers. -/
structure Answer where
  sent : Sent
  recv : Page

namespace Answer

def seq (answer : Answer) : Nat :=
  seqOf answer.sent.page

/-- The sequence number is that of the first segment and the octets sent since,
and the acknowledgement covers what the received segment occupied. -/
def Numbered (answers : List Answer) : Prop :=
  ∀ first rest, answers = first :: rest →
    ∀ before answer after, answers = before ++ answer :: after →
      answer.seq =
        (first.seq + (before.map fun earlier => occupied earlier.sent.page).sum) % 2 ^ 32 ∧
      ackOf answer.sent.page =
        (seqOf answer.recv + occupied answer.recv) % 2 ^ 32

end Answer

structure System where
  globals : Globals
  answers : List Answer

/-- A received frame and the old contents of the page that answers are built
in. -/
structure Label where
  recv : Page
  page : Page

namespace System

/-- The counters at boot; `send_id` is shared with the ICMP code. -/
def boot (sendId : Nat) : System where
  globals := ⟨0, sendId, 0⟩
  answers := []

def step (host : Host) (s : System) (label : Label) : Option System :=
  let (globals, sent) := tcpProc host s.globals label.recv label.page
  some ⟨globals, s.answers ++ sent.map fun frame => ⟨frame, label.recv⟩⟩

theorem step_eq {host : Host} {s : System} {label : Label} {globals : Globals}
    {sent : List Sent}
    (processed : tcpProc host s.globals label.recv label.page = (globals, sent)) :
    step host s label =
      some ⟨globals, s.answers ++ sent.map fun frame => ⟨frame, label.recv⟩⟩ := by
  simp only [step, processed]

/-- The received segments that `tcp_proc` answers. -/
def Answered (globals : Globals) (recv : Page) : Prop :=
  flagsOf recv &&& codebitsSyn ≠ 0 ∨ flagsOf recv = codebitsPsh ||| codebitsAck ∨
    flagsOf recv = codebitsAck ∧ globals.finFlag = 1

/-- No response with data has been sent. -/
def Silent (s : System) : Prop :=
  ∀ answer ∈ s.answers, payloadLength answer.sent.page = 0

/-- An answered segment that goes right: no response has been sent before, the
counter fits in a half-byte, and the segment occupies one octet whose number
does not carry. -/
def Regular (s : System) (label : Label) : Prop :=
  Answered s.globals label.recv →
    s.Silent ∧ s.globals.seqNum < 16 ∧ occupied label.recv = 1 ∧
      seqOf label.recv % 256 ≠ 255

/-! ## What every step keeps -/

/-- The octets of sequence space sent so far. -/
def octets (s : System) : Nat :=
  (s.answers.map fun answer => occupied answer.sent.page).sum

/-- All numbers are right; and as long as no response has been sent, the counter
is the number of octets sent. -/
structure Inv (s : System) : Prop where
  numbered : Answer.Numbered s.answers
  first : ∀ first rest, s.answers = first :: rest → first.seq = 0
  counter : s.Silent → s.globals.finFlag ≠ 1 ∧ s.globals.seqNum = s.octets % 2 ^ 32

theorem inv_boot (sendId : Nat) : (boot sendId).Inv where
  numbered _ _ none := by cases none
  first _ _ none := by cases none
  counter _ := ⟨Nat.zero_ne_one, rfl⟩

theorem numbered_concat {answers : List Answer} (answer : Answer)
    (numbered : Answer.Numbered answers)
    (first : ∀ first rest, answers = first :: rest → first.seq = 0)
    (seq : answer.seq =
      (answers.map fun earlier => occupied earlier.sent.page).sum % 2 ^ 32)
    (ack : ackOf answer.sent.page =
      (seqOf answer.recv + occupied answer.recv) % 2 ^ 32) :
    Answer.Numbered (answers ++ [answer]) ∧
      ∀ first rest, answers ++ [answer] = first :: rest → first.seq = 0 := by
  have starts (head : Answer) (rest : List Answer) (split : answers ++ [answer] = head :: rest) :
      head.seq = 0 := by
    cases answers with
    | nil =>
        cases split
        simpa using seq
    | cons old older =>
        cases split
        exact first _ _ rfl
  refine ⟨?_, starts⟩
  intro head rest split before current after place
  rw [starts head rest split, Nat.zero_add]
  rcases List.eq_nil_or_concat after with rfl | ⟨later, last, rfl⟩
  · obtain ⟨rfl, same⟩ := List.append_inj' place rfl
    cases same
    exact ⟨seq, ack⟩
  · have place' : answers ++ [answer] = (before ++ current :: later) ++ [last] := by
      simpa using place
    obtain ⟨same, -⟩ := List.append_inj' place' rfl
    cases answers with
    | nil => simp at same
    | cons old older =>
        have right := numbered old older rfl before current later same
        rwa [first old older rfl, Nat.zero_add] at right

theorem seqOf_lt (page : Page) : seqOf page < 2 ^ 32 := by
  have first := getByte_lt page (tcpOffset page + 4)
  have second := getByte_lt page (tcpOffset page + 4 + 1)
  have third := getByte_lt page (tcpOffset page + 4 + 2)
  have fourth := getByte_lt page (tcpOffset page + 4 + 2 + 1)
  rw [seqOf, be32, be16, be16]
  omega

/-- One created segment for a segment that occupies one octet without a
carry. -/
theorem ackOf_created_of_regular (host : Host) (globals : Globals) {recv : Page}
    (send : Page) (pktType payloadSize : Nat) (one : occupied recv = 1)
    (noCarry : seqOf recv % 256 ≠ 255) :
    ackOf (created host globals recv send pktType payloadSize) =
      (seqOf recv + occupied recv) % 2 ^ 32 := by
  have bound := seqOf_lt recv
  rw [ackOf_created, one]
  omega

theorem occupied_created (host : Host) (globals : Globals) (recv send : Page)
    (pktType : Nat) :
    occupied (created host globals recv send pktType 0) =
      (if pktType % 256 &&& codebitsSyn ≠ 0 then 1 else 0) +
        (if pktType % 256 &&& codebitsFin ≠ 0 then 1 else 0) := by
  rw [occupied, flagsOf_created, payloadLength_created _ _ _ _ _ _ (by decide), Nat.add_zero]

theorem tcpProc_syn (host : Host) (globals : Globals) {recv : Page} (page : Page)
    (syn : flagsOf recv &&& codebitsSyn ≠ 0) :
    tcpProc host globals recv page =
      (⟨(globals.seqNum + 1) % 2 ^ 32, (globals.sendId + 1) % 2 ^ 16, globals.finFlag⟩,
        [⟨created host globals recv page 18 0, 54⟩]) := by
  rw [flagsOf] at syn
  simp only [tcpProc, if_pos syn, tcpPktCreate_eq]
  rfl

theorem tcpProc_data (host : Host) (globals : Globals) {recv : Page} (page : Page)
    (data : flagsOf recv = codebitsPsh ||| codebitsAck) :
    ∃ page', tcpProc host globals recv page =
      (⟨(globals.seqNum + 1) % 2 ^ 32,
          ((globals.sendId + 1) % 2 ^ 16 + 1) % 2 ^ 16, 1⟩,
        [⟨created host globals recv page codebitsAck 0, 54⟩,
          ⟨created host ⟨globals.seqNum, (globals.sendId + 1) % 2 ^ 16, 1⟩ recv page' 24 60,
            114⟩]) := by
  rw [flagsOf] at data
  have notSyn : ¬ (codebitsPsh ||| codebitsAck) &&& codebitsSyn ≠ 0 := by decide
  obtain ⟨page', response⟩ := httpProc_eq
    { globals with sendId := (globals.sendId + 1) % 2 ^ 16 }
    (created host globals recv page codebitsAck 0) (ethSize + ipv4Size + tcpSize)
  refine ⟨page', ?_⟩
  simp only [tcpProc, data, if_neg notSyn, if_true, ite_self, respond, tcpPktCreate_eq,
    response]
  rfl

theorem tcpProc_ignored (host : Host) {globals : Globals} {recv : Page} (page : Page)
    (ignored : ¬ Answered globals recv) :
    tcpProc host globals recv page = (globals, []) := by
  simp only [Answered, not_or, not_and] at ignored
  obtain ⟨notSyn, notData, notFin⟩ := ignored
  rw [flagsOf] at notSyn notData notFin
  simp only [tcpProc, if_neg notSyn, if_neg notData]
  split
  case isTrue ack => rw [if_neg (notFin ack)]
  case isFalse => rfl

/-- A right segment that occupies one octet. -/
theorem Inv.append_one {s : System} {answer : Answer} {globals : Globals} (inv : s.Inv)
    (silent : s.Silent) (finFlag : globals.finFlag = s.globals.finFlag)
    (seqNum : globals.seqNum = (s.globals.seqNum + 1) % 2 ^ 32)
    (seq : answer.seq = s.globals.seqNum)
    (ack : ackOf answer.sent.page = (seqOf answer.recv + occupied answer.recv) % 2 ^ 32)
    (one : occupied answer.sent.page = 1) :
    Inv ⟨globals, s.answers ++ [answer]⟩ := by
  obtain ⟨notFin, counter⟩ := inv.counter silent
  obtain ⟨numbered, first⟩ := numbered_concat answer inv.numbered inv.first
    (seq.trans counter) ack
  refine ⟨numbered, first, fun _ => ⟨finFlag ▸ notFin, ?_⟩⟩
  simp only [octets, List.map_append, List.sum_append, List.map_singleton, List.sum_singleton,
    one, seqNum, counter, Nat.mod_add_mod]

/-- A right segment that occupies nothing, and one with data after it. -/
theorem Inv.append_two {s : System} {answer response : Answer} {globals : Globals}
    (inv : s.Inv) (silent : s.Silent)
    (seq : answer.seq = s.globals.seqNum)
    (ack : ackOf answer.sent.page = (seqOf answer.recv + occupied answer.recv) % 2 ^ 32)
    (nothing : occupied answer.sent.page = 0)
    (seq' : response.seq = s.globals.seqNum)
    (ack' : ackOf response.sent.page =
      (seqOf response.recv + occupied response.recv) % 2 ^ 32)
    (data : payloadLength response.sent.page ≠ 0) :
    Inv ⟨globals, s.answers ++ [answer, response]⟩ := by
  obtain ⟨-, counter⟩ := inv.counter silent
  obtain ⟨numbered, first⟩ := numbered_concat answer inv.numbered inv.first
    (seq.trans counter) ack
  have same : ((s.answers ++ [answer]).map fun earlier => occupied earlier.sent.page).sum =
      s.octets := by
    simp only [octets, List.map_append, List.sum_append, List.map_singleton,
      List.sum_singleton, nothing, Nat.add_zero]
  obtain ⟨numbered', first'⟩ := numbered_concat response numbered first
    (by rw [same, seq', counter]) ack'
  rw [List.append_assoc] at numbered' first'
  refine ⟨numbered', first', fun stillSilent => absurd (stillSilent response ?_) data⟩
  simp

theorem Inv.step_syn {host : Host} {s next : System} {label : Label} (inv : s.Inv)
    (regular : Regular s label) (syn : flagsOf label.recv &&& codebitsSyn ≠ 0)
    (stepped : step host s label = some next) : next.Inv := by
  obtain ⟨silent, small, one, noCarry⟩ := regular (.inl syn)
  rw [step_eq (tcpProc_syn host s.globals label.page syn)] at stepped
  cases stepped
  refine inv.append_one silent rfl rfl (seqOf_created _ _ _ _ _ _ small)
    (ackOf_created_of_regular _ _ _ _ _ one noCarry) ?_
  rw [occupied_created]
  decide

theorem Inv.step_data {host : Host} {s next : System} {label : Label} (inv : s.Inv)
    (regular : Regular s label) (data : flagsOf label.recv = codebitsPsh ||| codebitsAck)
    (stepped : step host s label = some next) : next.Inv := by
  obtain ⟨silent, small, one, noCarry⟩ := regular (.inr (.inl data))
  obtain ⟨page', answered⟩ := tcpProc_data host s.globals label.page data
  rw [step_eq answered] at stepped
  cases stepped
  refine inv.append_two silent (seqOf_created _ _ _ _ _ _ small)
    (ackOf_created_of_regular _ _ _ _ _ one noCarry) ?_
    (seqOf_created _ _ _ _ _ _ small) (ackOf_created_of_regular _ _ _ _ _ one noCarry) ?_
  · rw [occupied_created]
    decide
  · rw [payloadLength_created _ _ _ _ _ _ (by decide)]
    decide

theorem Inv.step {host : Host} {s next : System} {label : Label} (inv : s.Inv)
    (regular : Regular s label) (stepped : System.step host s label = some next) :
    next.Inv := by
  by_cases answered : Answered s.globals label.recv
  · rcases answered with syn | data | ⟨ack, fin⟩
    · exact inv.step_syn regular syn stepped
    · exact inv.step_data regular data stepped
    · have silent := (regular (.inr (.inr ⟨ack, fin⟩))).1
      exact absurd fin (inv.counter silent).1
  · simp only [System.step, tcpProc_ignored host label.page answered, List.map_nil,
      List.append_nil, Option.some.injEq] at stepped
    exact stepped ▸ inv

/-- In every sequence of received segments whose answered ones are all regular,
every segment sent has the right numbers. -/
theorem numbered_of_run {host : Host} {sendId : Nat} {labels : List Label} {last : System}
    (meets : LabelledRuns.RunMeets (System.step host) Regular (boot sendId) labels)
    (ran : LabelledRuns.run (System.step host) (boot sendId) labels = some last) :
    Answer.Numbered last.answers :=
  (LabelledRuns.invariant_of_runMeets
    (fun inv regular stepped => Inv.step inv regular stepped)
    (inv_boot sendId) meets ran).numbered

/-- A received segment with plain headers: its sequence number, its flags and
the length of its payload, of zeros. -/
def segment (seq flags payload : Nat) : Page :=
  let page : Page := fun _ => 0
  let page := setByte page 14 0x45
  let page := setByte (setByte page 16 ((40 + payload) / 256)) 17 (40 + payload)
  let page := setByte (setByte page 38 (seq / 2 ^ 24)) 39 (seq / 2 ^ 16)
  let page := setByte (setByte page 40 (seq / 2 ^ 8)) 41 seq
  let page := setByte page 46 0x50
  setByte page 47 flags

def blankPage : Page := fun _ => 1

/-- The machine at 10.0.1.10. -/
def qemuHost : Host where
  myIp := fun i => [10, 0, 1, 10].get i
  macAddr := fun i => [0x52, 0x54, 0, 0x12, 0x34, 0x56].get i

def synLabel : Label :=
  ⟨segment 5 codebitsSyn 0, blankPage⟩

theorem step_synLabel :
    ∃ answer, System.step qemuHost (boot 0) synLabel = some ⟨⟨1, 1, 0⟩, [answer]⟩ ∧
      payloadLength answer.sent.page = 0 := by
  have isSyn : flagsOf synLabel.recv &&& codebitsSyn ≠ 0 := by decide
  exact ⟨_, step_eq (tcpProc_syn qemuHost (boot 0).globals synLabel.page isSyn),
    payloadLength_created _ _ _ _ _ _ (by decide)⟩

/-- A request of one byte. -/
def byteLabel : Label :=
  ⟨segment 6 (codebitsPsh ||| codebitsAck) 1, blankPage⟩

theorem numbered_byteRequest :
    LabelledRuns.RunMeets (System.step qemuHost) Regular (boot 0) [synLabel, byteLabel] ∧
      ∃ last, LabelledRuns.run (System.step qemuHost) (boot 0) [synLabel, byteLabel] =
          some last ∧
        last.answers.length = 3 ∧ Answer.Numbered last.answers := by
  obtain ⟨opening, opened, silent⟩ := step_synLabel
  have isData : flagsOf byteLabel.recv = codebitsPsh ||| codebitsAck := by decide
  obtain ⟨page', data⟩ := tcpProc_data qemuHost ⟨1, 1, 0⟩ byteLabel.page isData
  have answered := step_eq (s := ⟨⟨1, 1, 0⟩, [opening]⟩) data
  have ran : LabelledRuns.run (System.step qemuHost) (boot 0) [synLabel, byteLabel] = some _ :=
    LabelledRuns.run_cons_eq_some.mpr ⟨_, opened, LabelledRuns.run_cons_eq_some.mpr
      ⟨_, answered, rfl⟩⟩
  have meets : LabelledRuns.RunMeets (System.step qemuHost) Regular (boot 0)
      [synLabel, byteLabel] := by
    refine ⟨fun _ => ⟨nofun, by decide, by decide, by decide⟩, fun next stepped => ?_⟩
    cases opened.symm.trans stepped
    have small : 1 < 16 := by decide
    refine ⟨fun _ => ⟨fun answer sent => ?_, small, by decide, by decide⟩,
      fun _ _ => trivial⟩
    rw [List.mem_singleton.mp sent, silent]
  exact ⟨meets, _, ran, rfl, numbered_of_run meets ran⟩

/-- A request of 16 bytes. -/
def requestLabel : Label :=
  ⟨segment 6 (codebitsPsh ||| codebitsAck) 16, blankPage⟩

theorem step_requestLabel (earlier : List Answer) :
    ∃ globals answer response,
      System.step qemuHost ⟨⟨1, 1, 0⟩, earlier⟩ requestLabel =
        some ⟨globals, earlier ++ [answer, response]⟩ ∧
      answer.recv = requestLabel.recv ∧ ackOf answer.sent.page = 7 := by
  have isData : flagsOf requestLabel.recv = codebitsPsh ||| codebitsAck := by decide
  obtain ⟨page', data⟩ := tcpProc_data qemuHost ⟨1, 1, 0⟩ requestLabel.page isData
  have stepped := step_eq (s := ⟨⟨1, 1, 0⟩, earlier⟩) data
  rw [List.map_cons, List.map_cons, List.map_nil] at stepped
  refine ⟨_, _, _, stepped, rfl, ?_⟩
  rw [ackOf_created]
  decide

/-- A connection and a request: the 16 bytes are acknowledged as one. -/
theorem request_misacknowledged :
    ∃ last, LabelledRuns.run (System.step qemuHost) (boot 0) [synLabel, requestLabel] =
        some last ∧
      ¬ Answer.Numbered last.answers := by
  obtain ⟨first, opened, -⟩ := step_synLabel
  obtain ⟨globals, answer, response, answered, recv, seven⟩ := step_requestLabel [first]
  refine ⟨_, LabelledRuns.run_cons_eq_some.mpr ⟨_, opened,
    LabelledRuns.run_cons_eq_some.mpr ⟨_, answered, rfl⟩⟩, ?_⟩
  intro numbered
  obtain ⟨-, ack⟩ := numbered first [answer, response] rfl [first] answer [response] rfl
  rw [seven, recv] at ack
  exact absurd ack (by decide)

end System

end Xv6.Tcp
