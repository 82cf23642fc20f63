import Xv6.IcmpReplies

/-!
# The checksum of a segment

`tcp_chksum` puts the address of the sender in both places of the pseudo header, leaves
out the last octet of an odd payload, and adds the carries to the sum once.
`tcp_pkt_create` adds eight to the result.  What a receiver computes is therefore off by
the difference of the two addresses, by that octet and by the eight, and the segment
verifies exactly if these cancel.
-/

namespace Xv6.Tcp

open ByteFields

/-! ## What a receiver checks -/

/-- The pseudo header: `my_ip`, the address of the peer, a zero, the protocol and the
length of the segment. -/
def pseudoHeader (host : Host) (recv : Page) (tcpLen : Nat) : List Nat :=
  [getByte host.myIp 0, getByte host.myIp 1, getByte host.myIp 2, getByte host.myIp 3,
    getByte recv 26, getByte recv 27, getByte recv 28, getByte recv 29,
    0, ipv4TypeTcp, tcpLen / 256, tcpLen % 256]

/-- The segment sums to 0xFFFF with its pseudo header.  A last octet without a partner
is padded with zero. -/
def SegmentVerifies (host : Host) (recv page : Page) (payloadSize : Nat) : Prop :=
  Verifies (OnesComplement.words 256
    (pseudoHeader host recv (tcpSize + payloadSize) ++
      octets page 34 (tcpSize + payloadSize)))

instance (host : Host) (recv page : Page) (payloadSize : Nat) :
    Decidable (SegmentVerifies host recv page payloadSize) :=
  inferInstanceAs (Decidable (Verifies _))

/-! ## Sums of the inputs -/

/-- The two words of `my_ip`. -/
def mySum (host : Host) : Nat :=
  256 * getByte host.myIp 0 + getByte host.myIp 1 +
    (256 * getByte host.myIp 2 + getByte host.myIp 3)

/-- The two words of the peer's address. -/
def peerSum (recv : Page) : Nat :=
  be16 recv 26 + be16 recv 28

/-- The two words of a number whose low byte is sent first. -/
def wordSum (value : Nat) : Nat :=
  256 * (value % 256) + value / 256 % 256 +
    (256 * (value / 65536 % 256) + value / 16777216 % 256)

/-- The words of the TCP header: ports, numbers, flags and window. -/
def headerSum (globals : Globals) (recv : Page) (pktType : Nat) : Nat :=
  be16 recv (tcpOffset recv + 2) + be16 recv (tcpOffset recv) +
    wordSum (h2nUint globals.seqNum) +
    wordSum ((getWord recv (tcpOffset recv + 4) + 2 ^ 24) % 2 ^ 32) +
    (256 * 80 + pktType % 256) + 14480

/-- The full words of the payload. -/
def payloadSum (send : Page) (payloadSize : Nat) : Nat :=
  (wordsAt send 54 (payloadSize / 2)).sum

/-- The last octet of an odd payload, padded to a word. -/
def oddWord (send : Page) (payloadSize : Nat) : Nat :=
  if payloadSize % 2 = 1 then 256 * getByte send (53 + payloadSize) else 0

/-- All the words that the segment has before its checksum, with `my_ip` twice and
without an odd octet. -/
def segmentSum (host : Host) (globals : Globals) (recv send : Page)
    (pktType payloadSize : Nat) : Nat :=
  2 * mySum host + 6 + (20 + payloadSize) + headerSum globals recv pktType +
    payloadSum send payloadSize

/-- What is added to the complement of a sum `s` beside it: eight, or one less or more if
one of the two additions carries out of 16 bits. -/
def excess (s : Nat) : Nat :=
  let folded := s % 65536 + s / 65536
  if folded < 8 then 7 else if folded < 65544 then 8 else 9

/-- The peer's address, an odd octet and the excess make up for `my_ip`. -/
def Balanced (host : Host) (globals : Globals) (recv send : Page)
    (pktType payloadSize : Nat) : Prop :=
  peerSum recv + oddWord send payloadSize +
      excess (segmentSum host globals recv send pktType payloadSize) ≡
    mySum host [MOD 65535]

instance (host : Host) (globals : Globals) (recv send : Page) (pktType payloadSize : Nat) :
    Decidable (Balanced host globals recv send pktType payloadSize) :=
  inferInstanceAs (Decidable (_ ≡ _ [MOD _]))

/-! ## Sums of words -/

theorem sum_wordsAt_le (page : Page) (offset n : Nat) :
    (wordsAt page offset n).sum ≤ n * 0xFFFF := by
  have bound := List.sum_le_card_nsmul _ _ (wordsAt_le page offset n)
  rwa [wordsAt, List.length_map, List.length_range] at bound

/-- The words of octets are the full words and the last octet if it is odd. -/
theorem sum_words_octets (page : Page) (offset n : Nat) :
    (OnesComplement.words 256 (octets page offset n)).sum =
      (wordsAt page offset (n / 2)).sum +
        if n % 2 = 1 then 256 * getByte page (offset + (n - 1)) else 0 := by
  by_cases odd : n % 2 = 1
  · obtain ⟨m, rfl⟩ : ∃ m, n = 2 * m + 1 := ⟨n / 2, by omega⟩
    have half : (2 * m + 1) / 2 = m := by omega
    have length : (octets page offset (2 * m)).length = 2 * m := by
      rw [octets, List.length_map, List.length_range]
    have split : octets page offset (2 * m + 1) =
        octets page offset (2 * m) ++ [getByte page (offset + 2 * m)] := by
      rw [octets, List.range_succ, List.map_append]
      rfl
    rw [if_pos odd, half, split, OnesComplement.words_append length, words_octets,
      List.sum_append, Nat.add_sub_cancel]
    simp only [OnesComplement.words, List.sum_singleton]
  · obtain ⟨m, rfl⟩ : ∃ m, n = 2 * m := ⟨n / 2, by omega⟩
    have half : 2 * m / 2 = m := by omega
    rw [if_neg odd, half, words_octets, Nat.add_zero]

/-- The loop of `tcp_chksum` stays below 2³². -/
theorem foldl_add_mod (word : Nat → Nat) (turns : List Nat) {start : Nat}
    (small : start + (turns.map word).sum < 2 ^ 32) :
    turns.foldl (fun chkSum i => (chkSum + word i) % 2 ^ 32) start =
      start + (turns.map word).sum := by
  induction turns generalizing start with
  | nil => rfl
  | cons i rest ih =>
      rw [List.map_cons, List.sum_cons] at small ⊢
      rw [List.foldl_cons, Nat.mod_eq_of_lt (by omega), ih (by omega), Nat.add_assoc]

/-! ## The fields of the segment -/

section Created

variable (host : Host) (globals : Globals) (recv send : Page) (pktType payloadSize : Nat)

theorem created_ports {k : Nat} (inside : k < 2) :
    getByte (created host globals recv send pktType payloadSize) (34 + k) =
        getHalf recv (tcpOffset recv + 2) / 256 ^ k % 256 ∧
      getByte (created host globals recv send pktType payloadSize) (36 + k) =
        getHalf recv (tcpOffset recv) / 256 ^ k % 256 := by
  constructor
  · simp (disch := omega) only [created, tcpPktCreate, getByte_setHalf_of_outside,
      getByte_setWord_of_outside, getByte_setByte_of_ne, getByte_setHalf]
  · simp (disch := omega) only [created, tcpPktCreate, getByte_setHalf_of_outside,
      getByte_setWord_of_outside, getByte_setByte_of_ne, getByte_setHalf]

theorem created_window {k : Nat} (inside : k < 2) :
    getByte (created host globals recv send pktType payloadSize) (48 + k) =
      h2nUshort 14480 / 256 ^ k % 256 := by
  simp (disch := omega) only [created, tcpPktCreate, getByte_setHalf_of_outside,
    getByte_setHalf]

theorem created_urgentPtr {k : Nat} (inside : k < 2) :
    getByte (created host globals recv send pktType payloadSize) (52 + k) =
      0 / 256 ^ k % 256 := by
  simp (disch := omega) only [created, tcpPktCreate, getByte_setHalf_of_outside,
    getByte_setHalf]

theorem created_payload {k : Nat} (behind : 54 ≤ k) :
    getByte (created host globals recv send pktType payloadSize) k = getByte send k := by
  simp (disch := omega) only [created, tcpPktCreate, getByte_setHalf_of_outside,
    getByte_setWord_of_outside, getByte_setByte_of_ne, getByte_copyField, getByte_storeField]

theorem getByte_storeField_inside {n : Nat} (dst : Page) (src : Bytes n) {dstOffset k : Nat}
    (room : dstOffset + n ≤ 4096) (inside : k < n) :
    getByte (storeField dst dstOffset src) (dstOffset + k) = getByte src k := by
  obtain ⟨rest, length⟩ : ∃ rest, n = k + (1 + rest) := ⟨n - (k + 1), by omega⟩
  have byte := getByte_lt src k
  unfold storeField
  rw [congrArg List.range length, List.range_add, List.foldl_append, List.foldl_map,
    List.range_add, List.foldl_append, List.foldl_map,
    getByte_foldl_setByte _ _ _ _ fun j isHere => by
      have below := List.mem_range.mp isHere
      omega]
  simp only [List.range_one, List.foldl_cons, List.foldl_nil, Nat.add_zero]
  rw [getByte_setByte _ _ _ _ (by omega), if_pos rfl, Nat.mod_eq_of_lt byte]

theorem created_srcIp {k : Nat} (inside : k < 4) :
    getByte (created host globals recv send pktType payloadSize) (26 + k) =
      getByte host.myIp k := by
  simp (disch := omega) only [created, tcpPktCreate, getByte_setHalf_of_outside,
    getByte_setWord_of_outside, getByte_setByte_of_ne, getByte_copyField,
    getByte_storeField_inside]

/-- The last store of `tcp_pkt_create` puts the checksum in the place of a zero. -/
theorem created_chksum :
    ∃ page, created host globals recv send pktType payloadSize =
        setHalf page 50 (h2nUshort (tcpChksum host page + 8)) ∧ be16 page 50 = 0 :=
  ⟨_, rfl, be16_setHalf_zero _ (by decide)⟩

end Created

theorem be16_of_half {page : Page} {offset value : Nat} (small : value < 65536)
    (byte : ∀ k < 2, getByte page (offset + k) = value / 256 ^ k % 256) :
    be16 page offset = 256 * (value % 256) + value / 256 := by
  have first := byte 0 (by decide)
  rw [Nat.add_zero, Nat.pow_zero, Nat.div_one] at first
  have high : value / 256 % 256 = value / 256 := Nat.mod_eq_of_lt (by omega)
  rw [be16, first, byte 1 (by decide), Nat.pow_one, high]

theorem be16_of_word {page : Page} {offset value : Nat}
    (byte : ∀ k < 4, getByte page (offset + k) = value / 256 ^ k % 256) :
    be16 page offset + be16 page (offset + 2) = wordSum value := by
  have first := byte 0 (by decide)
  rw [Nat.add_zero, Nat.pow_zero, Nat.div_one] at first
  rw [be16, be16, first, byte 1 (by decide), byte 2 (by decide), byte 3 (by decide), Nat.pow_one,
    wordSum]
  norm_num

/-- The half that a field holds is its two bytes. -/
theorem swap_getHalf (page : Page) (offset : Nat) :
    256 * (getHalf page offset % 256) + getHalf page offset / 256 = be16 page offset := by
  have low := getByte_lt page offset
  have high := getByte_lt page (offset + 1)
  unfold getHalf be16
  omega

theorem sum_eight (a b c d e f g h : Nat) :
    [a, b, c, d, e, f, g, h].sum = a + b + (c + d) + (e + f) + g + h := by
  simp only [List.sum_cons, List.sum_nil]
  omega

section Checked

variable (host : Host) (globals : Globals) (recv send : Page) (pktType payloadSize : Nat)

/-- The words of the TCP header but for the checksum. -/
theorem created_headerSum :
    (wordsAt (created host globals recv send pktType payloadSize) 34 8).sum +
        be16 (created host globals recv send pktType payloadSize) 52 =
      headerSum globals recv pktType := by
  have destination := be16_of_half (getHalf_lt recv (tcpOffset recv + 2))
    fun k inside => (created_ports host globals recv send pktType payloadSize inside).1
  have source := be16_of_half (getHalf_lt recv (tcpOffset recv))
    fun k inside => (created_ports host globals recv send pktType payloadSize inside).2
  have seq := be16_of_word
    fun k inside => created_seq host globals recv send pktType payloadSize inside
  have ack := be16_of_word
    fun k inside => created_ack host globals recv send pktType payloadSize inside
  have window := be16_of_half (by decide : h2nUshort 14480 < 65536)
    fun k inside => created_window host globals recv send pktType payloadSize inside
  have urgent := be16_of_half (by decide : 0 < 65536)
    fun k inside => created_urgentPtr host globals recv send pktType payloadSize inside
  have flags : be16 (created host globals recv send pktType payloadSize) 46 =
      256 * 80 + pktType % 256 := by
    rw [be16, created_headerLength, created_flags]
  have swapped : 256 * (h2nUshort 14480 % 256) + h2nUshort 14480 / 256 = 14480 := by decide
  rw [swap_getHalf] at destination source
  rw [swapped] at window
  generalize created host globals recv send pktType payloadSize = page at *
  have words : wordsAt page 34 8 =
      [be16 page 34, be16 page 36, be16 page 38, be16 page (38 + 2), be16 page 42,
        be16 page (42 + 2), be16 page 46, be16 page 48] :=
    rfl
  rw [words, sum_eight, destination, source, seq, ack, flags, window, urgent, headerSum]

/-- A page that has the segment's bytes but for the checksum has its words. -/
theorem sum_segment {page : Page}
    (same : ∀ k, k < 50 ∨ 52 ≤ k →
      getByte page k = getByte (created host globals recv send pktType payloadSize) k) :
    (wordsAt page 34 ((20 + payloadSize) / 2)).sum =
      headerSum globals recv pktType + be16 page 50 + payloadSum send payloadSize := by
  have header := created_headerSum host globals recv send pktType payloadSize
  have front : wordsAt (created host globals recv send pktType payloadSize) 34 8 =
      wordsAt page 34 8 :=
    wordsAt_congr fun k inside => (same _ (.inl (by omega))).symm
  have urgent : be16 (created host globals recv send pktType payloadSize) 52 = be16 page 52 :=
    be16_congr (same 52 (.inr (by decide))).symm (same 53 (.inr (by decide))).symm
  have payload : wordsAt page 54 (payloadSize / 2) = wordsAt send 54 (payloadSize / 2) :=
    wordsAt_congr fun k _ => (same _ (.inr (by omega))).trans
      (created_payload host globals recv send pktType payloadSize (by omega))
  have half : (20 + payloadSize) / 2 = 8 + (2 + payloadSize / 2) := by omega
  have two : wordsAt page (34 + 8 * 2) 2 = [be16 page 50, be16 page 52] := rfl
  have behind : 34 + 8 * 2 + 2 * 2 = 54 := rfl
  rw [front, urgent] at header
  rw [half, wordsAt_add, wordsAt_add, List.sum_append, List.sum_append, two, behind, payload,
    List.sum_cons, List.sum_singleton, payloadSum, ← header]
  generalize be16 page 50 = chkSum
  generalize be16 page 52 = pointer
  omega

end Checked

/-! ## What `tcp_chksum` computes -/

theorem n2hUshort_eq {value : Nat} (small : value < 65536) :
    n2hUshort value = 256 * (value % 256) + value / 256 := by
  have low : value &&& 0xFF = value % 256 := Nat.and_two_pow_sub_one_eq_mod value 8
  rw [n2hUshort, Nat.mod_eq_of_lt (by omega : value < 2 ^ 16), low, Nat.shiftLeft_eq,
    Nat.shiftRight_eq_div_pow]
  omega

theorem n2hUshort_h2nUshort {value : Nat} (small : value < 65536) :
    n2hUshort (h2nUshort value) = value := by
  have bound : h2nUshort value < 65536 := Nat.mod_lt _ (by decide)
  have swapped := h2nUshort_swap small
  rw [n2hUshort_eq bound]
  omega

theorem h2nUshort_mod (value : Nat) : h2nUshort (value % 65536) = h2nUshort value := by
  have same : value % 65536 % 2 ^ 16 = value % 2 ^ 16 := Nat.mod_mod value _
  rw [h2nUshort, h2nUshort, same]

/-- The complement of a sum whose carries are added once, and eight more. -/
def storedChksum (s : Nat) : Nat :=
  (0xFFFF - (s + s / 65536) % 65536 + 8) % 65536

/-- `tcp_chksum` on a page with a total length. -/
theorem tcpChksum_eq (host : Host) {page : Page} {tcpLen s : Nat}
    (total : getHalf page 16 = h2nUshort (20 + tcpLen)) (short : 20 + tcpLen < 65536)
    (sum : s = mySum host + (be16 page 26 + be16 page 28) + 6 + tcpLen +
      (wordsAt page 34 (tcpLen / 2)).sum) :
    tcpChksum host page = 0xFFFF - (s + s / 65536) % 65536 := by
  have bound := sum_wordsAt_le page 34 (tcpLen / 2)
  have first := getByte_lt host.myIp 0
  have second := getByte_lt host.myIp 1
  have third := getByte_lt host.myIp 2
  have fourth := getByte_lt host.myIp 3
  have source := be16_le page 26
  have target := be16_le page 28
  have length : (n2hUshort (getHalf page 16) + 2 ^ 32 - ipv4Size) % 2 ^ 16 = tcpLen := by
    rw [total, n2hUshort_h2nUshort short]
    simp only [ipv4Size]
    omega
  have start : 256 * getByte host.myIp 0 + getByte host.myIp 1 +
      (256 * getByte host.myIp 2 + getByte host.myIp 3) + be16 page 26 + be16 page 28 +
      ipv4TypeTcp + tcpLen + (wordsAt page 34 (tcpLen / 2)).sum = s := by
    rw [sum, mySum]
    simp only [ipv4TypeTcp]
    omega
  have below : s < 2 ^ 31 := by
    rw [← start]
    simp only [ipv4TypeTcp]
    omega
  have loop := foldl_add_mod (fun i => be16 page (ethSize + ipv4Size + i * 2))
    (List.range (tcpLen / 2)) (lt_of_eq_of_lt start (by omega))
  unfold tcpChksum
  simp only [length]
  rw [loop]
  change (2 ^ 32 - 1 - (_ + (wordsAt page 34 (tcpLen / 2)).sum +
    ((_ + (wordsAt page 34 (tcpLen / 2)).sum) >>> 16)) % 2 ^ 32) % 2 ^ 16 = _
  rw [start, Nat.shiftRight_eq_div_pow]
  omega

section Exact

variable (host : Host) (globals : Globals) (recv send : Page) (pktType payloadSize : Nat)

/-- The checksum that the segment is sent with. -/
theorem be16_created_chksum (fits : payloadSize ≤ 4042) :
    be16 (created host globals recv send pktType payloadSize) 50 =
      storedChksum (segmentSum host globals recv send pktType payloadSize) := by
  obtain ⟨page, made, zero⟩ :=
    created_chksum host globals recv send pktType payloadSize
  have same {k : Nat} (elsewhere : k < 50 ∨ 52 ≤ k) : getByte page k =
      getByte (created host globals recv send pktType payloadSize) k := by
    rw [made, getByte_setHalf_of_outside _ _ (by decide) (by omega)]
  have total : getHalf page 16 = h2nUshort (20 + (20 + payloadSize)) := by
    have low := created_totalLen host globals recv send pktType payloadSize (k := 0) (by decide)
    have high := created_totalLen host globals recv send pktType payloadSize (k := 1) (by decide)
    have bound : h2nUshort (40 + payloadSize) < 65536 := Nat.mod_lt _ (by decide)
    have whole : 20 + (20 + payloadSize) = 40 + payloadSize := by omega
    rw [getHalf, same (by omega), same (by omega), low, high, whole]
    omega
  have source : be16 page 26 + be16 page 28 = mySum host := by
    have octet {k : Nat} (inside : k < 4) : getByte page (26 + k) = getByte host.myIp k := by
      rw [same (by omega), created_srcIp host globals recv send pktType payloadSize inside]
    rw [be16, be16, mySum, ← octet (k := 0) (by decide), ← octet (k := 1) (by decide),
      ← octet (k := 2) (by decide), ← octet (k := 3) (by decide)]
  have words := sum_segment host globals recv send pktType payloadSize fun _ => same
  have sum : segmentSum host globals recv send pktType payloadSize =
      mySum host + (be16 page 26 + be16 page 28) + 6 + (20 + payloadSize) +
        (wordsAt page 34 ((20 + payloadSize) / 2)).sum := by
    rw [source, words, zero, segmentSum]
    omega
  have chksum := tcpChksum_eq host total (by omega) sum
  rw [made, chksum, ← h2nUshort_mod, be16_setHalf _ (by decide) (by omega), storedChksum]

/-- What a segment with the stored checksum adds up to, with the sender's address once
more. -/
theorem sum_checked (fits : payloadSize ≤ 4042) :
    (OnesComplement.words 256 (pseudoHeader host recv (20 + payloadSize) ++
        octets (created host globals recv send pktType payloadSize) 34
          (20 + payloadSize))).sum + mySum host =
      segmentSum host globals recv send pktType payloadSize +
        storedChksum (segmentSum host globals recv send pktType payloadSize) +
        (peerSum recv + oddWord send payloadSize) := by
  have words := sum_segment host globals recv send pktType payloadSize fun _ _ => rfl
  have chksum := be16_created_chksum host globals recv send pktType payloadSize fits
  have pseudo : OnesComplement.words 256 (pseudoHeader host recv (20 + payloadSize)) =
      [256 * getByte host.myIp 0 + getByte host.myIp 1,
        256 * getByte host.myIp 2 + getByte host.myIp 3,
        be16 recv 26, be16 recv 28, 256 * 0 + ipv4TypeTcp,
        256 * ((20 + payloadSize) / 256) + (20 + payloadSize) % 256] :=
    rfl
  have odd : (if (20 + payloadSize) % 2 = 1 then
      256 * getByte (created host globals recv send pktType payloadSize)
        (34 + (20 + payloadSize - 1)) else 0) = oddWord send payloadSize := by
    have parity : (20 + payloadSize) % 2 = payloadSize % 2 := by omega
    rw [oddWord, parity]
    split
    · have last : 34 + (20 + payloadSize - 1) = 53 + payloadSize := by omega
      rw [last, created_payload host globals recv send pktType payloadSize (by omega)]
    · rfl
  have length : (pseudoHeader host recv (20 + payloadSize)).length = 2 * 6 := rfl
  rw [OnesComplement.words_append length, List.sum_append, sum_words_octets, odd, words, chksum,
    pseudo]
  generalize storedChksum (segmentSum host globals recv send pktType payloadSize) = stored
  simp only [List.sum_cons, List.sum_nil, segmentSum, mySum, peerSum, ipv4TypeTcp]
  generalize be16 recv 26 = first
  generalize be16 recv 28 = second
  omega

theorem pseudoHeader_lt (short : 20 + payloadSize < 65536) :
    ∀ octet ∈ pseudoHeader host recv (20 + payloadSize), octet < 256 := by
  simp only [pseudoHeader, List.forall_mem_cons, getByte_lt, true_and, ipv4TypeTcp]
  refine ⟨by decide, by decide, by omega, by omega, nofun⟩

theorem octets_lt (page : Page) (offset n : Nat) : ∀ octet ∈ octets page offset n, octet < 256 := by
  intro octet isOctet
  obtain ⟨k, _, rfl⟩ := List.mem_map.mp isOctet
  exact getByte_lt page _

end Exact

/-- The complement and the sum it was made of differ from zero by the excess. -/
theorem add_storedChksum {s : Nat} (small : s < 2 ^ 32) :
    s + storedChksum s ≡ excess s [MOD 65535] := by
  have parts : s = 65536 * (s / 65536) + s % 65536 := (Nat.div_add_mod s 65536).symm
  have high : s / 65536 < 65536 := by omega
  have low := Nat.mod_lt s (by decide : 65536 > 0)
  have folded : (s + s / 65536) % 65536 = (s % 65536 + s / 65536) % 65536 := by omega
  -- the sum is a multiple of 65535, and the excess
  have exact (q : Nat) (whole : s + storedChksum s = 65535 * q + excess s) :
      s + storedChksum s ≡ excess s [MOD 65535] := by
    rw [whole]
    exact Nat.mul_add_mod _ _ _
  unfold storedChksum excess at *
  rw [folded] at *
  simp only at *
  by_cases few : s % 65536 + s / 65536 < 8
  · rw [if_pos few] at *
    exact exact (s / 65536) (by omega)
  rw [if_neg few] at *
  by_cases carry : s % 65536 + s / 65536 < 65544
  · rw [if_pos carry] at *
    exact exact (s / 65536 + 1) (by omega)
  · rw [if_neg carry] at *
    exact exact (s / 65536 + 2) (by omega)

theorem wordSum_lt (value : Nat) : wordSum value < 2 * 65536 := by
  unfold wordSum
  omega

theorem segmentSum_lt (host : Host) (globals : Globals) (recv send : Page) (pktType : Nat)
    {payloadSize : Nat} (fits : payloadSize ≤ 4042) :
    segmentSum host globals recv send pktType payloadSize < 2 ^ 31 := by
  have payload := sum_wordsAt_le send 54 (payloadSize / 2)
  have seq := wordSum_lt (h2nUint globals.seqNum)
  have ack := wordSum_lt ((getWord recv (tcpOffset recv + 4) + 2 ^ 24) % 2 ^ 32)
  have target := be16_le recv (tcpOffset recv + 2)
  have source := be16_le recv (tcpOffset recv)
  have first := getByte_lt host.myIp 0
  have second := getByte_lt host.myIp 1
  have third := getByte_lt host.myIp 2
  have fourth := getByte_lt host.myIp 3
  rw [segmentSum, headerSum, payloadSum, mySum]
  generalize wordSum (h2nUint globals.seqNum) = a at *
  generalize wordSum ((getWord recv (tcpOffset recv + 4) + 2 ^ 24) % 2 ^ 32) = b at *
  generalize be16 recv (tcpOffset recv + 2) = c at *
  generalize be16 recv (tcpOffset recv) = d at *
  omega

/-- The segment that `tcp_pkt_create` builds verifies exactly if the peer's address, an
odd octet and the excess make up for `my_ip`. -/
theorem segmentVerifies_iff {host : Host} {globals : Globals} {recv send : Page}
    {pktType payloadSize : Nat} (fits : payloadSize ≤ 4042) :
    SegmentVerifies host recv (created host globals recv send pktType payloadSize)
        payloadSize ↔
      Balanced host globals recv send pktType payloadSize := by
  have octet : ∀ octet ∈ pseudoHeader host recv (20 + payloadSize) ++
      octets (created host globals recv send pktType payloadSize) 34 (20 + payloadSize),
      octet < 256 :=
    List.forall_mem_append.mpr
      ⟨pseudoHeader_lt host recv payloadSize (by omega), octets_lt _ _ _⟩
  have small := fun word isWord =>
    Nat.le_sub_one_of_lt (OnesComplement.words_lt octet word isWord)
  have total := sum_checked host globals recv send pktType payloadSize fits
  have bound := segmentSum_lt host globals recv send pktType fits
  have least : 2 * mySum host < segmentSum host globals recv send pktType payloadSize := by
    rw [segmentSum]
    omega
  have stored := (add_storedChksum (by omega :
    segmentSum host globals recv send pktType payloadSize < 2 ^ 32)).add_right
      (peerSum recv + oddWord send payloadSize)
  rw [← total, Nat.add_comm (excess _)] at stored
  have lengths : SegmentVerifies host recv
      (created host globals recv send pktType payloadSize) payloadSize ↔ _ :=
    OnesComplement.sum_eq_top_iff (by decide) small
  rw [lengths, Balanced]
  constructor
  · rintro ⟨-, zero⟩
    have shifted := zero.add_right (mySum host)
    rw [Nat.zero_add] at shifted
    exact stored.symm.trans shifted
  · intro balanced
    refine ⟨fun isZero => ?_, Nat.ModEq.add_right_cancel' (mySum host) ?_⟩
    · have short := total.symm.trans (congrArg (· + mySum host) isZero)
      omega
    rw [Nat.zero_add]
    exact stored.trans balanced

/-- A SYN from 10.0.1.`last`. -/
def synFrom (last : Nat) : Page :=
  let page := System.segment 5 codebitsSyn 0
  setByte (setByte (setByte page 26 10) 28 1) 29 last

/-- With the peer 10.0.1.2 the eight make up for the difference. -/
theorem segmentVerifies_two :
    SegmentVerifies System.qemuHost (synFrom 2)
      (created System.qemuHost ⟨0, 0, 0⟩ (synFrom 2) System.blankPage
        (codebitsAck ||| codebitsSyn) 0) 0 :=
  (segmentVerifies_iff (by decide)).mpr (by decide +kernel)

/-- With the peer 10.0.1.3 they do not. -/
theorem segment_fails_three :
    ¬SegmentVerifies System.qemuHost (synFrom 3)
      (created System.qemuHost ⟨0, 0, 0⟩ (synFrom 3) System.blankPage
        (codebitsAck ||| codebitsSyn) 0) 0 := by
  decide +kernel

end Xv6.Tcp
