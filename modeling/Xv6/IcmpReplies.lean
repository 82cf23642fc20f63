import Xv6.OnesComplement
import Xv6.TcpSegments

/-!
# Checksums of headers and echo replies

`ipv4_chksum` and `icmp_chksum` add the words of a header with an end-around carry
and complement the sum.  A packet with such a checksum in the place of a zero field
sums to 0xFFFF.  For an IPv4 header this needs a length nibble of at least three, as
the checksum is the sixth word.
-/

namespace Xv6.Tcp

open ByteFields

/-- The octets from an offset on. -/
def octets (page : Page) (offset n : Nat) : List Nat :=
  (List.range n).map fun k => getByte page (offset + k)

/-- The words of a packet sum to 0xFFFF with end-around carry. -/
def Verifies (words : List Nat) : Prop :=
  OnesComplement.sum 0xFFFF words = 0xFFFF

instance (words : List Nat) : Decidable (Verifies words) :=
  inferInstanceAs (Decidable (_ = _))

/-- The nibble `IHL` of the IPv4 header. -/
def ihl (page : Page) : Nat :=
  getByte page ethSize &&& 0xF

/-- The IPv4 header, by the length it gives for itself. -/
def HeaderVerifies (page : Page) : Prop :=
  Verifies (OnesComplement.words 256 (octets page ethSize (4 * ihl page)))

instance (page : Page) : Decidable (HeaderVerifies page) :=
  inferInstanceAs (Decidable (Verifies _))

/-- `chk_sum = 0` and then the checksum in network order. -/
def storeIpv4Chksum (page : Page) : Page :=
  let page := setHalf page 24 0
  setHalf page 24 (h2nUshort (ipv4Chksum page))

abbrev ipv4TypeIcmp : Nat := 0x1
abbrev icmpTypeEchoRequest : Nat := 0x8
abbrev icmpTypeEchoReply : Nat := 0x0

/-- The size of `struct icmp_echo_pkt`. -/
abbrev icmpSize : Nat := 64

/-- The loop of `icmp_chksum`, for a message at an offset of the page. -/
def icmpChksum (page : Page) (icmpAddr : Nat) : Nat :=
  let chkSum := (List.range 32).foldl
    (fun chkSum i =>
      let chkSum := chkSum + be16 page (icmpAddr + i * 2)
      if chkSum > 0xFFFF then (chkSum &&& 0xFFFF) + 1 else chkSum) 0
  (2 ^ 32 - 1 - chkSum) % 2 ^ 16

/-- `icmp_reply_pkt_create` up to the checksum of the IPv4 header. -/
def replyHeader (host : Host) (sendId : Nat) (recv send : Page) : Page :=
  let send := copyField send 0 recv 6 6
  let send := storeField send 6 host.macAddr
  let send := setByte send 12 0x08
  let send := setByte send 13 0x00
  let send := setByte send 14 ((4 <<< 4) + (ipv4Size / 4 &&& 0xF))
  let send := setByte send 15 0
  let send := setHalf send 16 (h2nUshort (ipv4Size + icmpSize))
  let send := setHalf send 18 sendId
  let send := setHalf send 20 (h2nUshort 0x4000)
  let send := setByte send 22 255
  let send := setByte send 23 ipv4TypeIcmp
  let send := storeField send 26 host.myIp
  copyField send 30 recv 26 4

/-- `icmp_reply_pkt_create`: the new `send_id`, the page with the reply and its size. -/
def icmpReplyPktCreate (host : Host) (sendId : Nat) (recv send : Page) :
    Nat × Page × Nat :=
  let icmpRecv := tcpOffset recv
  let sendSize := ethSize + ipv4Size + icmpSize
  let send := storeIpv4Chksum (replyHeader host sendId recv send)
  let sendId := (sendId + 1) % 2 ^ 16
  let send := setByte send 34 icmpTypeEchoReply
  let send := setByte send 35 0
  let send := setHalf send 38 (getHalf recv (icmpRecv + 4))
  let send := setHalf send 40 (getHalf recv (icmpRecv + 6))
  let send := copyField send 42 recv (icmpRecv + 8) 8
  let send := copyField send 50 recv (icmpRecv + 16) 48
  let send := setHalf send 36 0
  let send := setHalf send 36 (h2nUshort (icmpChksum send 34))
  (sendId, send, sendSize)

/-! ## Words of a page -/

/-- The words from an offset on. -/
def wordsAt (page : Page) (offset n : Nat) : List Nat :=
  (List.range n).map fun i => be16 page (offset + i * 2)

theorem be16_le (page : Page) (offset : Nat) : be16 page offset ≤ 0xFFFF := by
  have high := getByte_lt page offset
  have low := getByte_lt page (offset + 1)
  unfold be16
  omega

theorem words_octets (page : Page) (offset n : Nat) :
    OnesComplement.words 256 (octets page offset (2 * n)) = wordsAt page offset n := by
  rw [octets, OnesComplement.words_map_range, wordsAt]
  apply List.map_congr_left
  intro i _
  rw [be16, Nat.mul_comm i 2, Nat.add_assoc]

theorem wordsAt_le (page : Page) (offset n : Nat) :
    ∀ word ∈ wordsAt page offset n, word ≤ 0xFFFF := by
  intro word isWord
  obtain ⟨i, _, rfl⟩ := List.mem_map.mp isWord
  exact be16_le page _

theorem be16_congr {page page' : Page} {offset : Nat}
    (first : getByte page' offset = getByte page offset)
    (second : getByte page' (offset + 1) = getByte page (offset + 1)) :
    be16 page' offset = be16 page offset := by
  rw [be16, be16, first, second]

theorem wordsAt_congr {page page' : Page} {offset n : Nat}
    (same : ∀ k < 2 * n, getByte page' (offset + k) = getByte page (offset + k)) :
    wordsAt page' offset n = wordsAt page offset n := by
  apply List.map_congr_left
  intro i inside
  have below := List.mem_range.mp inside
  exact be16_congr (same _ (by omega)) (same (i * 2 + 1) (by omega))

theorem wordsAt_add (page : Page) (offset m n : Nat) :
    wordsAt page offset (m + n) = wordsAt page offset m ++ wordsAt page (offset + m * 2) n := by
  rw [wordsAt, List.range_add, List.map_append, List.map_map]
  congr 1
  apply List.map_congr_left
  intro i _
  rw [Function.comp_apply, Nat.add_mul, Nat.add_assoc]

/-- A number stored in network order is read back. -/
theorem be16_setHalf (page : Page) {offset value : Nat} (room : offset + 2 ≤ 4096)
    (small : value ≤ 0xFFFF) :
    be16 (setHalf page offset (h2nUshort value)) offset = value := by
  have first := getByte_setHalf page (h2nUshort value) room (show 0 < 2 by decide)
  have second := getByte_setHalf page (h2nUshort value) room (show 1 < 2 by decide)
  rw [Nat.add_zero, Nat.pow_zero, Nat.div_one] at first
  rw [be16, first, second, Nat.pow_one, h2nUshort_swap (by omega)]

/-! ## The loops of the checksums -/

/-- The loops carry as soon as a sum passes 0xFFFF. -/
theorem chksum_loop {word : Nat → Nat} (small : ∀ i, word i ≤ 0xFFFF) (turns : List Nat)
    {start : Nat} (bound : start ≤ 0xFFFF) :
    turns.foldl
        (fun chkSum i =>
          let chkSum := chkSum + word i
          if chkSum > 0xFFFF then (chkSum &&& 0xFFFF) + 1 else chkSum) start =
      (turns.map word).foldl (OnesComplement.add 0xFFFF) start := by
  induction turns generalizing start with
  | nil => rfl
  | cons i rest ih =>
      have first := small i
      have carried : (if start + word i > 0xFFFF then (start + word i &&& 0xFFFF) + 1
          else start + word i) = OnesComplement.add 0xFFFF start (word i) := by
        unfold OnesComplement.add
        split
        · rw [Nat.and_two_pow_sub_one_eq_mod _ 16]
          omega
        · rfl
      simp only [List.foldl_cons, List.map_cons]
      rw [carried]
      exact ih (OnesComplement.add_le bound first)

theorem ipv4Chksum_eq (page : Page) :
    ipv4Chksum page =
      0xFFFF - OnesComplement.sum 0xFFFF (wordsAt page ethSize (2 * ihl page)) := by
  have bound := OnesComplement.sum_le (wordsAt_le page ethSize (2 * ihl page))
  unfold ipv4Chksum
  simp only
  rw [chksum_loop (fun i => be16_le page (ethSize + i * 2)) _ (Nat.zero_le _),
    Nat.mul_comm]
  change (2 ^ 32 - 1 - OnesComplement.sum 0xFFFF (wordsAt page ethSize (2 * ihl page))) %
    2 ^ 16 = _
  omega

theorem icmpChksum_eq (page : Page) (icmpAddr : Nat) :
    icmpChksum page icmpAddr =
      0xFFFF - OnesComplement.sum 0xFFFF (wordsAt page icmpAddr 32) := by
  have bound := OnesComplement.sum_le (wordsAt_le page icmpAddr 32)
  unfold icmpChksum
  simp only
  rw [chksum_loop (fun i => be16_le page (icmpAddr + i * 2)) _ (Nat.zero_le _)]
  change (2 ^ 32 - 1 - OnesComplement.sum 0xFFFF (wordsAt page icmpAddr 32)) % 2 ^ 16 = _
  omega

/-- The complement of the sum, stored in a word that was zero, makes the words
verify. -/
theorem verifies_setHalf (page : Page) (offset before after : Nat)
    (room : offset + (before + (1 + after)) * 2 ≤ 4096)
    (zero : be16 page (offset + before * 2) = 0) :
    Verifies (wordsAt (setHalf page (offset + before * 2)
      (h2nUshort (0xFFFF - OnesComplement.sum 0xFFFF
        (wordsAt page offset (before + (1 + after)))))) offset (before + (1 + after))) := by
  generalize stored : 0xFFFF - OnesComplement.sum 0xFFFF
    (wordsAt page offset (before + (1 + after))) = value
  have small : value ≤ 0xFFFF := by omega
  have field (page : Page) : wordsAt page (offset + before * 2) 1 =
      [be16 page (offset + before * 2)] := rfl
  have left : wordsAt (setHalf page (offset + before * 2) (h2nUshort value)) offset before =
      wordsAt page offset before :=
    wordsAt_congr fun k inside =>
      getByte_setHalf_of_outside _ _ (by omega) (.inl (by omega))
  have right : wordsAt (setHalf page (offset + before * 2) (h2nUshort value))
      (offset + before * 2 + 1 * 2) after = wordsAt page (offset + before * 2 + 1 * 2) after :=
    wordsAt_congr fun k inside =>
      getByte_setHalf_of_outside _ _ (by omega) (.inr (by omega))
  rw [wordsAt_add, wordsAt_add, field, zero] at stored
  rw [wordsAt_add, wordsAt_add, field, left, right, be16_setHalf _ (by omega) small, ← stored]
  exact OnesComplement.sum_complement (by decide) (wordsAt_le _ _ _) (wordsAt_le _ _ _)

/-! ## IPv4 headers -/

theorem be16_setHalf_zero (page : Page) {offset : Nat} (room : offset + 2 ≤ 4096) :
    be16 (setHalf page offset 0) offset = 0 := by
  have stored := be16_setHalf page room (Nat.zero_le 0xFFFF)
  exact stored

theorem ihl_lt (page : Page) : ihl page < 16 :=
  Nat.lt_of_le_of_lt Nat.and_le_right (by decide)

theorem ihl_setHalf (page : Page) (value : Nat) : ihl (setHalf page 24 value) = ihl page := by
  rw [ihl, ihl, getByte_setHalf_of_outside _ _ (by decide) (.inl (by decide))]

theorem ihl_storeIpv4Chksum (page : Page) : ihl (storeIpv4Chksum page) = ihl page := by
  rw [storeIpv4Chksum, ihl_setHalf, ihl_setHalf]

theorem headerVerifies_iff (page : Page) :
    HeaderVerifies page ↔ Verifies (wordsAt page ethSize (2 * ihl page)) := by
  have bytes : 4 * ihl page = 2 * (2 * ihl page) := by omega
  rw [HeaderVerifies, bytes, words_octets]

/-- A header that contains its checksum verifies. -/
theorem headerVerifies_storeIpv4Chksum {page : Page} (long : 3 ≤ ihl page) :
    HeaderVerifies (storeIpv4Chksum page) := by
  have short := ihl_lt page
  obtain ⟨after, length⟩ : ∃ after, 2 * ihl page = 5 + (1 + after) :=
    ⟨2 * ihl page - 6, by omega⟩
  have verified := verifies_setHalf (setHalf page 24 0) ethSize 5 after
    (by simp only [ethSize]; omega) (be16_setHalf_zero page (by decide))
  rw [headerVerifies_iff, ihl_storeIpv4Chksum, length, storeIpv4Chksum, ipv4Chksum_eq,
    ihl_setHalf, length]
  exact verified

/-! ## Echo replies -/

theorem ihl_replyHeader (host : Host) (sendId : Nat) (recv send : Page) :
    ihl (replyHeader host sendId recv send) = 5 := by
  have version : getByte (replyHeader host sendId recv send) 14 = 69 := by
    simp (disch := omega) only [replyHeader, getByte_setHalf_of_outside, getByte_copyField,
      getByte_storeField, getByte_setByte]
    rfl
  rw [ihl, version]
  rfl

section Reply

variable (host : Host) (sendId : Nat) (recv send : Page)

/-- The page that `icmp_reply_pkt_create` leaves. -/
def reply : Page :=
  (icmpReplyPktCreate host sendId recv send).2.1

theorem getByte_reply {offset : Nat} (header : offset < 34) :
    getByte (reply host sendId recv send) offset =
      getByte (storeIpv4Chksum (replyHeader host sendId recv send)) offset := by
  simp (disch := omega) only [reply, icmpReplyPktCreate, getByte_setHalf_of_outside,
    getByte_copyField, getByte_setByte_of_ne]

theorem reply_header : HeaderVerifies (reply host sendId recv send) := by
  have length : ihl (reply host sendId recv send) =
      ihl (storeIpv4Chksum (replyHeader host sendId recv send)) := by
    rw [ihl, ihl, getByte_reply host sendId recv send (by decide)]
  have long : 3 ≤ ihl (replyHeader host sendId recv send) := by
    rw [ihl_replyHeader]
    decide
  have stored := headerVerifies_storeIpv4Chksum long
  rw [headerVerifies_iff] at stored ⊢
  have five : ihl (storeIpv4Chksum (replyHeader host sendId recv send)) = 5 := by
    rw [ihl_storeIpv4Chksum, ihl_replyHeader]
  rw [five] at stored
  rw [length, five]
  have same : wordsAt (reply host sendId recv send) ethSize (2 * 5) =
      wordsAt (storeIpv4Chksum (replyHeader host sendId recv send)) ethSize (2 * 5) :=
    wordsAt_congr fun k inside =>
      getByte_reply host sendId recv send (by simp only [ethSize]; omega)
  rw [same]
  exact stored

/-- The message is stored with the complement of its sum. -/
theorem reply_message :
    Verifies (OnesComplement.words 256 (octets (reply host sendId recv send) 34 icmpSize)) := by
  have length : icmpSize = 2 * 32 := rfl
  rw [length, words_octets]
  unfold reply icmpReplyPktCreate
  simp only
  rw [icmpChksum_eq]
  apply verifies_setHalf _ 34 1 30 (by decide)
  exact be16_setHalf_zero _ (by decide)

end Reply

/-- The two checksums of an echo reply are right, and so is the one of any header that
contains its checksum. -/
theorem checksums_verify :
    (∀ host sendId recv send,
      HeaderVerifies (reply host sendId recv send) ∧ ihl (reply host sendId recv send) = 5 ∧
        Verifies (OnesComplement.words 256
          (octets (reply host sendId recv send) 34 icmpSize))) ∧
      ∀ page, 3 ≤ ihl page → HeaderVerifies (storeIpv4Chksum page) := by
  refine ⟨fun host sendId recv send => ⟨reply_header host sendId recv send, ?_,
    reply_message host sendId recv send⟩, fun page => headerVerifies_storeIpv4Chksum⟩
  rw [ihl, getByte_reply host sendId recv send (by decide)]
  exact (ihl_storeIpv4Chksum _).trans (ihl_replyHeader host sendId recv send)

/-- A header of twenty bytes. -/
theorem checksums_verify_twenty :
    HeaderVerifies (storeIpv4Chksum (setByte (fun _ => 7) 14 0x45)) :=
  checksums_verify.2 _ (by decide)

/-- A header without a length has no checksum in it. -/
theorem emptyHeader_fails :
    ihl (setByte (fun _ => 0) 14 0x40) = 0 ∧
      ¬HeaderVerifies (storeIpv4Chksum (setByte (fun _ => 0) 14 0x40)) := by
  have length : ihl (setByte (fun _ => 0) 14 0x40) = 0 := by decide
  refine ⟨length, ?_⟩
  rw [headerVerifies_iff, ihl_storeIpv4Chksum, length]
  decide

end Xv6.Tcp
