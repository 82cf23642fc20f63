import Mathlib.Algebra.BigOperators.Group.Finset.Piecewise
import Mathlib.Algebra.Order.BigOperators.Group.Finset
import Xv6.BlockAccounting
import Xv6.MkfsModel

/-!
# What is in the image while it is written

The blocks of a file are taken in the order in which `iappend` reaches them, so
that the length of a file says which of its places are filled.  `Stored` is about
the data blocks and a table of inodes, which may be ahead of the image while
`iappend` runs.
-/

namespace Xv6.Mkfs

open ByteFields Blocks BlockOwners StateTriples

section Places

/-- The order in which the places of an inode are filled. -/
def rank : Spot → Nat
  | .addr k => k.val
  | .indirect j => ndirect + 1 + j.val

theorem rank_injective {first second : Spot} (same : rank first = rank second) :
    first = second := by
  cases first with
  | addr k =>
      cases second with
      | addr l => exact congrArg Spot.addr (Fin.ext same)
      | indirect j =>
          have bound : k.val < 13 := k.isLt
          have equal : k.val = 12 + 1 + j.val := same
          omega
  | indirect j =>
      cases second with
      | addr l =>
          have bound : l.val < 13 := l.isLt
          have equal : 12 + 1 + j.val = l.val := same
          omega
      | indirect l =>
          have equal : 12 + 1 + j.val = 12 + 1 + l.val := same
          exact congrArg Spot.indirect (Fin.ext (by omega))

/-- The blocks of a file of this length. -/
def blocksFor (length : Nat) : Nat :=
  (length + 511) / 512 + if 6144 < length then 1 else 0

theorem blocksFor_zero : blocksFor 0 = 0 :=
  rfl

theorem blocksFor_mono {first second : Nat} (less : first ≤ second) :
    blocksFor first ≤ blocksFor second := by
  unfold blocksFor
  split
  · split <;> omega
  · split <;> omega

/-- A whole block of the file is taken at once. -/
theorem blocksFor_add {off n : Nat} (some' : 0 < n) (inside : n ≤ 512 - off % 512) :
    blocksFor (off + n) = blocksFor (off + 1) := by
  unfold blocksFor
  split
  · split <;> omega
  · split <;> omega

theorem rank_spotOf {bn : Nat} {spot : Spot} (index : spotOf bn = some spot) :
    rank spot = if bn < 12 then bn else bn + 1 := by
  unfold spotOf at index
  split at index
  case isTrue direct =>
    cases index
    exact (if_pos direct).symm
  case isFalse beyond =>
    split at index
    · cases index
      rw [if_neg beyond]
      change 12 + 1 + (bn - 12) = bn + 1
      have low : ¬ bn < 12 := beyond
      omega
    · cases index

/-- A block has a number exactly if the file reaches it. -/
theorem rank_lt_blocksFor {bn length : Nat} {spot : Spot} (index : spotOf bn = some spot) :
    rank spot < blocksFor length ↔ bn * 512 < length := by
  rw [rank_spotOf index]
  unfold blocksFor
  split
  · split <;> omega
  · split <;> omega

theorem exists_spotOf {bn : Nat} (inside : bn < maxfile) : ∃ spot, spotOf bn = some spot := by
  by_cases direct : bn < ndirect
  · exact ⟨_, spotOf_direct direct⟩
  · have bound : bn < 12 + 128 := inside
    have beyond : ¬ bn < 12 := direct
    have room : bn - ndirect < nindirect := by
      change bn - 12 < 128
      omega
    exact ⟨_, spotOf_indirect direct room⟩

end Places

/-- The data blocks below `next` are those of the inodes in the table, each inode
has its first blocks, and these have the bytes of its file. -/
structure Stored (disk : Disk) (inode : Nat → Dinode) (next : Nat) (blocks : Nat → Nat)
    (bytes : Nat → List UInt8) : Prop where
  accounts : Accounted (held disk inode ninodes) fun b => nmeta ≤ b ∧ b < next
  ranked : ∀ i, 0 < i → i < ninodes →
    ∀ spot, Blocks.entry disk (inode i) spot ≠ 0 ↔ rank spot < blocks i
  typed : ∀ i, 0 < i → i < ninodes → 0 < blocks i → (inode i).type ≠ 0
  contents : ∀ i k byte, 0 < i → i < ninodes → (bytes i)[k]? = some byte →
    ∃ spot b, spotOf (k / bsize) = some spot ∧
      held disk inode ninodes (i, spot) = some b ∧
      getByte (disk b) (k % bsize) = byte.toNat
  blank : ∀ b, next ≤ b → disk b = zeroes
  total : next = nmeta + ∑ i ∈ Finset.range ninodes, blocks i

section Data

variable {disk disk' : Disk} {inode inode' : Nat → Dinode} {next i b : Nat}
  {blocks : Nat → Nat} {bytes : Nat → List UInt8} {spot : Spot}

theorem held_congr (type : (inode' i).type = (inode i).type)
    (same : Blocks.entry disk' (inode' i) spot = Blocks.entry disk (inode i) spot) :
    held disk' inode' ninodes (i, spot) = held disk inode ninodes (i, spot) := by
  unfold held
  dsimp only
  rw [type, same]

theorem Stored.held_of_entry (stored : Stored disk inode next blocks bytes) (positive : 0 < i)
    (inside : i < ninodes) (nonzero : Blocks.entry disk (inode i) spot ≠ 0) :
    held disk inode ninodes (i, spot) = some (Blocks.entry disk (inode i) spot) := by
  have taken := (stored.ranked i positive inside spot).mp nonzero
  have type := stored.typed i positive inside (Nat.zero_lt_of_lt taken)
  exact held_eq_some.mpr ⟨⟨⟨positive, inside⟩, type⟩, rfl, nonzero⟩

theorem Stored.nmeta_le (stored : Stored disk inode next blocks bytes) : nmeta ≤ next := by
  rw [stored.total]
  exact Nat.le_add_right _ _

theorem Stored.bounds (stored : Stored disk inode next blocks bytes) {place : Nat × Spot}
    (holds : held disk inode ninodes place = some b) : nmeta ≤ b ∧ b < next :=
  stored.accounts.used_of_held holds

/-- Where the indirect block of an inode lies. -/
theorem Stored.indirect_bounds (stored : Stored disk inode next blocks bytes) (positive : 0 < i)
    (inside : i < ninodes) (present : (inode i).addrs (Fin.last ndirect) ≠ 0) :
    held disk inode ninodes (i, .addr (Fin.last ndirect)) =
        some ((inode i).addrs (Fin.last ndirect)).toNat ∧
      nmeta ≤ ((inode i).addrs (Fin.last ndirect)).toNat ∧
      ((inode i).addrs (Fin.last ndirect)).toNat < next := by
  have nonzero : Blocks.entry disk (inode i) (.addr (Fin.last ndirect)) ≠ 0 :=
    toNat_ne_zero.mpr present
  have holds := stored.held_of_entry positive inside nonzero
  exact ⟨holds, stored.bounds holds⟩

/-- Only the addresses in the table, the types where there are some, and the data
blocks count. -/
theorem Stored.congr (stored : Stored disk inode next blocks bytes)
    (addrs : ∀ j, 0 < j → j < ninodes → (inode' j).addrs = (inode j).addrs)
    (types : ∀ j, 0 < j → j < ninodes → 0 < blocks j → (inode' j).type = (inode j).type)
    (data : ∀ b, nmeta ≤ b → disk' b = disk b) : Stored disk' inode' next blocks bytes := by
  have entries (j : Nat) (other : Spot) (low : 0 < j) (inside : j < ninodes) :
      Blocks.entry disk' (inode' j) other = Blocks.entry disk (inode j) other := by
    have table : Blocks.entry disk' (inode' j) other = Blocks.entry disk' (inode j) other := by
      cases other with
      | addr k => rw [Blocks.entry, Blocks.entry, addrs j low inside]
      | indirect k => rw [Blocks.entry, Blocks.entry, addrs j low inside]
    rw [table]
    exact entry_congr fun present => data _ (stored.indirect_bounds low inside present).2.1
  have places (place : Nat × Spot) :
      held disk' inode' ninodes place = held disk inode ninodes place := by
    obtain ⟨j, other⟩ := place
    ext b
    rw [held_eq_some, held_eq_some]
    constructor
    · rintro ⟨⟨⟨low, inside⟩, type⟩, rfl, nonzero⟩
      rw [entries j other low inside] at nonzero ⊢
      have taken := (stored.ranked j low inside other).mp nonzero
      have some' := Nat.zero_lt_of_lt taken
      exact ⟨⟨⟨low, inside⟩, stored.typed j low inside some'⟩, rfl, nonzero⟩
    · rintro ⟨⟨⟨low, inside⟩, type⟩, rfl, nonzero⟩
      have taken := (stored.ranked j low inside other).mp nonzero
      refine ⟨⟨⟨low, inside⟩, ?_⟩, entries j other low inside, nonzero⟩
      rw [types j low inside (Nat.zero_lt_of_lt taken)]
      exact type
  refine ⟨stored.accounts.congr places fun b => Iff.rfl, ?_, ?_, ?_, ?_, stored.total⟩
  · intro j low inside other
    rw [entries j other low inside]
    exact stored.ranked j low inside other
  · intro j low inside some'
    rw [types j low inside some']
    exact stored.typed j low inside some'
  · intro j k byte low inside here
    obtain ⟨other, b, index, holds, value⟩ := stored.contents j k byte low inside here
    refine ⟨other, b, index, (places _).trans holds, ?_⟩
    rw [data b (stored.bounds holds).1]
    exact value
  · intro b later
    rw [data b (stored.nmeta_le.trans later)]
    exact stored.blank b later

variable (blocks) in
theorem sum_update {count : Nat} (inside : i < ninodes) :
    (∑ j ∈ Finset.range ninodes, Function.update blocks i count j) + blocks i =
      (∑ j ∈ Finset.range ninodes, blocks j) + count := by
  have member : i ∈ Finset.range ninodes := Finset.mem_range.mpr inside
  rw [Finset.sum_update_of_mem member, ← Finset.add_sum_erase _ blocks member,
    Finset.sdiff_singleton_eq_erase]
  omega

/-- The next block goes to the next place of an inode. -/
theorem Stored.assign (stored : Stored disk inode next blocks bytes) (positive : 0 < i)
    (inside : i < ninodes) (type : (inode i).type ≠ 0) (turn : rank spot = blocks i)
    (here : Blocks.entry disk' (inode' i) spot = next)
    (elsewhere : ∀ j other, 0 < j → j < ninodes → (j, other) ≠ (i, spot) →
      Blocks.entry disk' (inode' j) other = Blocks.entry disk (inode j) other)
    (types : ∀ j, (inode' j).type = (inode j).type)
    (data : ∀ place b, place.2 ≠ .addr (Fin.last ndirect) →
      held disk inode ninodes place = some b → disk' b = disk b)
    (blank : ∀ b, next < b → disk' b = zeroes) :
    Stored disk' inode' (next + 1) (Function.update blocks i (blocks i + 1)) bytes := by
  have nonzero : next ≠ 0 := by
    have low := stored.nmeta_le
    have : nmeta = 59 := rfl
    omega
  have empty : held disk inode ninodes (i, spot) = none := by
    rw [Option.eq_none_iff_forall_ne_some]
    intro b holds
    obtain ⟨-, value, filled⟩ := held_eq_some.mp holds
    rw [← value] at filled
    exact absurd ((stored.ranked i positive inside spot).mp filled) (by omega)
  have filled : held disk' inode' ninodes (i, spot) = some next := by
    refine held_eq_some.mpr ⟨⟨⟨positive, inside⟩, ?_⟩, here, nonzero⟩
    rw [types]
    exact type
  have others (place : Nat × Spot) (differ : place ≠ (i, spot)) :
      held disk' inode' ninodes place = held disk inode ninodes place := by
    obtain ⟨j, other⟩ := place
    by_cases range : 0 < j ∧ j < ninodes
    · exact held_congr (types j) (elsewhere j other range.1 range.2 differ)
    · ext b
      rw [held_eq_some, held_eq_some]
      exact ⟨fun holds => absurd holds.1.1 range, fun holds => absurd holds.1.1 range⟩
  refine ⟨?_, ?_, ?_, ?_, fun b later => blank b later, ?_⟩
  · refine stored.accounts.assign (fun used => absurd used.2 (Nat.lt_irrefl _)) empty filled
      others fun b => ?_
    have low := stored.nmeta_le
    omega
  · intro j low high other
    by_cases same : j = i
    · subst same
      rw [Function.update_self]
      by_cases spots : other = spot
      · subst spots
        rw [here, turn]
        exact ⟨fun _ => Nat.lt_succ_self _, fun _ => nonzero⟩
      · rw [elsewhere j other low high fun equal => spots (congrArg Prod.snd equal),
          stored.ranked j low high other]
        have apart : rank other ≠ rank spot := fun equal => spots (rank_injective equal)
        omega
    · rw [Function.update_of_ne same,
        elsewhere j other low high fun equal => same (congrArg Prod.fst equal)]
      exact stored.ranked j low high other
  · intro j low high some'
    rw [types]
    by_cases same : j = i
    · subst same
      exact type
    · rw [Function.update_of_ne same] at some'
      exact stored.typed j low high some'
  · intro j k byte low high found
    obtain ⟨other, b, index, holds, value⟩ := stored.contents j k byte low high found
    have differ : (j, other) ≠ (i, spot) := by
      intro same
      rw [same, empty] at holds
      cases holds
    refine ⟨other, b, index, (others _ differ).trans holds, ?_⟩
    rw [data _ b (spotOf_ne_last index) holds]
    exact value
  · have more : _ + blocks i = _ + (blocks i + 1) := sum_update blocks inside
    have total := stored.total
    omega

/-- The next block goes to an element of `addrs`. -/
theorem Stored.assign_addr {k : Fin (ndirect + 1)}
    (stored : Stored disk inode next blocks bytes) (positive : 0 < i) (inside : i < ninodes)
    (type : (inode i).type ≠ 0) (turn : k.val = blocks i) (small : next < 2 ^ 32) :
    Stored disk (Function.update inode i ((inode i).setAddr k (UInt32.ofNat next))) (next + 1)
      (Function.update blocks i (blocks i + 1)) bytes := by
  have value : (UInt32.ofNat next).toNat = next := UInt32.toNat_ofNat_of_lt' small
  have absent : ¬ Blocks.entry disk (inode i) (.addr k) ≠ 0 := by
    rw [stored.ranked i positive inside]
    change ¬ k.val < blocks i
    omega
  have turn : rank (.addr k) = blocks i := turn
  refine stored.assign positive inside type turn ?_ ?_ ?_ ?_ ?_
  · rw [Function.update_self, Blocks.entry, setAddr_self, value]
  · intro j other low high differ
    by_cases same : j = i
    · subst same
      rw [Function.update_self]
      cases other with
      | addr l =>
          have apart : l ≠ k := by
            rintro rfl
            exact differ rfl
          rw [Blocks.entry, Blocks.entry, setAddr_of_ne _ _ apart]
      | indirect l =>
          by_cases last : k = Fin.last ndirect
          · subst last
            have zero : (inode j).addrs (Fin.last ndirect) = 0 := by
              by_contra present
              exact absent (toNat_ne_zero.mpr present)
            rw [Blocks.entry, Blocks.entry, setAddr_self, zero, if_pos rfl, value,
              stored.blank next (Nat.le_refl _)]
            split
            · rfl
            · exact getWord_zero _
          · exact entry_setAddr_indirect last
    · rw [Function.update_of_ne same]
  · intro j
    by_cases same : j = i
    · subst same
      rw [Function.update_self]
      rfl
    · rw [Function.update_of_ne same]
  · intro place b _ _
    rfl
  · intro b later
    exact stored.blank b (Nat.le_of_lt later)

/-- The next block goes to an element of the indirect block. -/
theorem Stored.assign_indirect {a : Nat} {l : Fin nindirect}
    (stored : Stored disk inode next blocks bytes) (positive : 0 < i) (inside : i < ninodes)
    (block : held disk inode ninodes (i, .addr (Fin.last ndirect)) = some a)
    (turn : ndirect + 1 + l.val = blocks i) (small : next < 2 ^ 32) :
    Stored (Function.update disk a (setWord (disk a) (4 * l.val) next)) inode (next + 1)
      (Function.update blocks i (blocks i + 1)) bytes := by
  obtain ⟨⟨-, type⟩, isBlock, filled⟩ := held_eq_some.mp block
  have present : (inode i).addrs (Fin.last ndirect) ≠ 0 := by
    rw [← isBlock] at filled
    exact toNat_ne_zero.mp filled
  have isBlock : ((inode i).addrs (Fin.last ndirect)).toNat = a := isBlock
  have room : 4 * l.val + 4 ≤ bsize := by
    have bound : l.val < 128 := l.isLt
    change 4 * l.val + 4 ≤ 512
    omega
  have turn : rank (.indirect l) = blocks i := turn
  refine stored.assign positive inside type turn ?_ ?_ (fun _ => rfl) ?_ ?_
  · rw [Blocks.entry, if_neg present, isBlock, Function.update_self, getWord_setWord _ _ room]
    exact Nat.mod_eq_of_lt small
  · intro j other low high differ
    by_cases same : j = i
    · subst same
      cases other with
      | addr k => rfl
      | indirect m =>
          have apart : m.val ≠ l.val := by
            intro equal
            exact differ (congrArg (fun spot => (j, Spot.indirect spot)) (Fin.ext equal))
          rw [Blocks.entry, Blocks.entry, if_neg present, if_neg present, isBlock,
            Function.update_self, getWord_setWord_of_disjoint _ _ room (by omega)]
    · refine entry_congr fun present' => Function.update_of_ne ?_ ..
      intro equal
      have holds := (stored.indirect_bounds low high present').1
      rw [equal] at holds
      exact same (congrArg Prod.fst (stored.accounts.apart holds block))
  · intro place b notLast holds
    refine Function.update_of_ne ?_ ..
    rintro rfl
    exact notLast (congrArg Prod.snd (stored.accounts.apart holds block))
  · intro b later
    have before := (stored.bounds block).2
    rw [Function.update_of_ne (by omega)]
    exact stored.blank b (Nat.le_of_lt later)

theorem getByte_copyInto (block : Block) {offset m k : Nat} (src : Nat → UInt8)
    (room : k < bsize) :
    getByte (copyInto block offset m src) k =
      if offset ≤ k ∧ k < offset + m then (src (k - offset)).toNat else getByte block k := by
  unfold getByte copyInto
  rw [dif_pos room, dif_pos room]
  dsimp only
  split
  · rfl
  · rfl

/-- Bytes are put behind the end of a file, in its last block. -/
theorem Stored.append {p : List UInt8} {off m : Nat}
    (stored : Stored disk inode next blocks bytes) (index : spotOf (off / bsize) = some spot)
    (holds : held disk inode ninodes (i, spot) = some b) (ends : (bytes i).length = off)
    (inBlock : m ≤ bsize - off % bsize) :
    Stored (Function.update disk b (copyInto (disk b) (off % bsize) m fun k => p.getD k 0))
      inode next blocks (Function.update bytes i (bytes i ++ p.take m)) := by
  have inBlock : m ≤ 512 - off % 512 := inBlock
  have notIndirect {j : Nat} (low : 0 < j) (high : j < ninodes)
      (present : (inode j).addrs (Fin.last ndirect) ≠ 0) :
      ((inode j).addrs (Fin.last ndirect)).toNat ≠ b := by
    intro equal
    have block := (stored.indirect_bounds low high present).1
    rw [equal] at block
    exact spotOf_ne_last index (congrArg Prod.snd (stored.accounts.apart holds block))
  have entries (j : Nat) (other : Spot) (low : 0 < j) (high : j < ninodes) :
      Blocks.entry (Function.update disk b (copyInto (disk b) (off % bsize) m fun k => p.getD k 0))
        (inode j) other = Blocks.entry disk (inode j) other :=
    entry_congr fun present => Function.update_of_ne (notIndirect low high present) ..
  have places (place : Nat × Spot) :
      held (Function.update disk b (copyInto (disk b) (off % bsize) m fun k => p.getD k 0))
        inode ninodes place = held disk inode ninodes place := by
    obtain ⟨j, other⟩ := place
    by_cases range : 0 < j ∧ j < ninodes
    · exact held_congr rfl (entries j other range.1 range.2)
    · ext b
      rw [held_eq_some, held_eq_some]
      exact ⟨fun holds => absurd holds.1.1 range, fun holds => absurd holds.1.1 range⟩
  refine ⟨stored.accounts.congr places fun b => Iff.rfl, ?_, stored.typed, ?_, ?_, stored.total⟩
  · intro j low high other
    rw [entries j other low high]
    exact stored.ranked j low high other
  · intro j k byte low high found
    by_cases old : (bytes j)[k]? = some byte
    · obtain ⟨other, c, index', holds', value⟩ := stored.contents j k byte low high old
      refine ⟨other, c, index', (places _).trans holds', ?_⟩
      by_cases same : c = b
      · subst same
        obtain ⟨rfl, rfl⟩ := Prod.mk.inj (stored.accounts.apart holds' holds)
        have sameBlock : k / 512 = off / 512 := by
          have one := rank_spotOf index'
          have two := rank_spotOf index
          change _ = if k / 512 < 12 then k / 512 else k / 512 + 1 at one
          change _ = if off / 512 < 12 then off / 512 else off / 512 + 1 at two
          split at one <;> split at two <;> omega
        have before : k < off := by
          rw [← ends]
          exact (List.getElem?_eq_some_iff.mp old).1
        rw [Function.update_self, getByte_copyInto _ _ (Nat.mod_lt _ (by decide)), if_neg]
        · exact value
        · change ¬ (off % 512 ≤ k % 512 ∧ k % 512 < off % 512 + m)
          omega
      · rw [Function.update_of_ne same]
        exact value
    · have same : j = i := by
        by_contra other
        rw [Function.update_of_ne other] at found
        exact old found
      subst same
      rw [Function.update_self] at found
      have beyond : off ≤ k := by
        by_contra before
        rw [List.getElem?_append_left (by omega)] at found
        exact old found
      rw [List.getElem?_append_right (by omega), ends, List.getElem?_take] at found
      split at found
      case isFalse => cases found
      case isTrue inTake =>
        have block : k / 512 = off / 512 := by omega
        have between : off % 512 ≤ k % 512 ∧ k % 512 < off % 512 + m := by omega
        have position : k % 512 - off % 512 = k - off := by omega
        refine ⟨spot, b, ?_, (places _).trans holds, ?_⟩
        · exact (congrArg spotOf block).trans index
        · rw [Function.update_self, getByte_copyInto _ _ (Nat.mod_lt _ (by decide)),
            if_pos between, position, List.getD_eq_getElem?_getD, found]
          rfl
  · intro c later
    have before := (stored.bounds holds).2
    rw [Function.update_of_ne (by omega)]
    exact stored.blank c later

end Data

section Sectors

variable {s : State} {sec : Nat} {allowed : Exit → Prop}

/-- A sector is written. -/
def State.write (s : State) (sec : Nat) (buf : Block) : State :=
  { s with image := Function.update s.image sec buf }

theorem sector_of_lt (small : sec < fssize) : sector sec = sec := by
  have bound : sec < 1000 := small
  change sec * 512 % 2 ^ 32 / 512 = sec
  omega

theorem wp_wsect {buf : Block} {post : Unit → State → Prop} (length : s.length = fssize)
    (inside : sec < fssize) :
    wp allowed (wsect sec buf) post s ↔ post () (s.write sec buf) := by
  have kept : max s.length (sec + 1) = s.length := by
    rw [length]
    exact Nat.max_eq_left inside
  rw [wsect, wp_modify, sector_of_lt inside, kept]
  rfl

theorem wp_rsect {post : Block → State → Prop} (length : s.length = fssize)
    (inside : sec < fssize) :
    wp allowed (rsect sec) post s ↔ post (s.image sec) s := by
  rw [rsect, wp_bind, wp_get, sector_of_lt inside, length, if_pos inside, wp_pure]

/-- A block number from the image that is not behind the end. -/
theorem wp_rsect_of_small {post : Block → State → Prop} (length : s.length = fssize)
    (small : sec < 2 ^ 23) (inside : sec < fssize → post (s.image sec) s)
    (behind : fssize ≤ sec → allowed .failure) : wp allowed (rsect sec) post s := by
  by_cases within : sec < fssize
  · exact (wp_rsect length within).mpr (inside within)
  · have same : sector sec = sec := by
      change sec * 512 % 2 ^ 32 / 512 = sec
      omega
    rw [rsect, wp_bind, wp_get, same, length, if_neg within, wp_throw]
    exact behind (Nat.le_of_not_lt within)

theorem wp_assert {condition : Prop} [Decidable condition] {post : Unit → State → Prop} :
    wp allowed (assert condition) post s ↔
      (condition → post () s) ∧ (¬ condition → allowed .abort) := by
  unfold assert
  split
  case isTrue holds => simp [holds]
  case isFalse fails => simp [fails]

end Sectors

section Appending

/-- Only data blocks have changed. -/
structure Extends (s t : State) : Prop where
  length : t.length = s.length
  freeinode : t.freeinode = s.freeinode
  front : ∀ b, b < nmeta → t.image b = s.image b

variable {s t u : State} {inode : Nat → Dinode} {blocks : Nat → Nat} {bytes : Nat → List UInt8}
  {din : Dinode} {i off : Nat}

theorem Extends.refl (s : State) : Extends s s :=
  ⟨rfl, rfl, fun _ _ => rfl⟩

theorem Extends.trans (first : Extends s t) (second : Extends t u) : Extends s u where
  length := second.length.trans first.length
  freeinode := second.freeinode.trans first.freeinode
  front b low := (second.front b low).trans (first.front b low)

theorem extends_write {b : Nat} {buf : Block} (data : nmeta ≤ b) : Extends s (s.write b buf) where
  length := rfl
  freeinode := rfl
  front c low := Function.update_of_ne (by omega) ..

/-- An inode that `iappend` works on has got its blocks up to this count. -/
structure Filled (inode : Nat → Dinode) (blocks : Nat → Nat) (bytes : Nat → List UInt8) (i : Nat)
    (s : State) (din : Dinode) (count : Nat) (t : State) (din' : Dinode) : Prop where
  stored : Stored t.image (Function.update inode i din') t.freeblock
    (Function.update blocks i count) bytes
  extends' : Extends s t
  fields : ∃ addrs, din' = { din with addrs := addrs }
  taken : t.freeblock + blocks i = s.freeblock + count

theorem fillAddr_spec {k : Fin (ndirect + 1)}
    (stored : Stored s.image (Function.update inode i din) s.freeblock blocks bytes)
    (positive : 0 < i) (inside : i < ninodes) (type : din.type ≠ 0) (turn : k.val ≤ blocks i)
    (small : s.freeblock < 2 ^ 32) :
    wp (fun _ => False) (fillAddr din k)
      (fun din' t => Filled inode blocks bytes i s din (max (blocks i) (k.val + 1)) t din' ∧
        held t.image (Function.update inode i din') ninodes (i, .addr k) =
          some (din'.addrs k).toNat ∧
        (t.freeblock = s.freeblock ∨ (din'.addrs k).toNat + 1 = t.freeblock)) s := by
  have ranked := stored.ranked i positive inside (.addr k)
  rw [Function.update_self] at ranked
  have ranked : (din.addrs k).toNat ≠ 0 ↔ k.val < blocks i := ranked
  unfold fillAddr
  split
  case isTrue absent =>
    have atTurn : k.val = blocks i := by
      have zero : ¬ (din.addrs k).toNat ≠ 0 := by
        rw [absent]
        exact not_not.mpr rfl
      rw [ranked] at zero
      omega
    have value : (UInt32.ofNat s.freeblock).toNat = s.freeblock :=
      UInt32.toNat_ofNat_of_lt' small
    have next := stored.assign_addr (k := k) positive inside
      (by rw [Function.update_self]; exact type) atTurn small
    rw [Function.update_self, Function.update_idem] at next
    have count : max (blocks i) (k.val + 1) = blocks i + 1 := by omega
    simp only [nextBlock, wp_bind, wp_get, wp_modify, wp_pure]
    rw [count]
    have holds : held s.image (Function.update inode i (din.setAddr k (UInt32.ofNat s.freeblock)))
        ninodes (i, .addr k) = some s.freeblock := by
      refine held_eq_some.mpr ⟨⟨⟨positive, inside⟩, ?_⟩, ?_, ?_⟩
      · rw [Function.update_self]
        exact type
      · rw [Function.update_self, Blocks.entry, setAddr_self, value]
      · have low := stored.nmeta_le
        have : nmeta = 59 := rfl
        omega
    refine ⟨⟨next, ⟨rfl, rfl, fun _ _ => rfl⟩, ⟨_, rfl⟩, ?_⟩, ?_, ?_⟩
    · change s.freeblock + 1 + blocks i = s.freeblock + (blocks i + 1)
      omega
    · rw [setAddr_self, value]
      exact holds
    · right
      rw [setAddr_self, value]
  case isFalse present =>
    have nonzero := toNat_ne_zero.mpr present
    have before := ranked.mp nonzero
    have count : max (blocks i) (k.val + 1) = blocks i := by omega
    rw [wp_pure, count]
    refine ⟨⟨?_, Extends.refl s, ⟨_, rfl⟩, rfl⟩, ?_, .inl rfl⟩
    · rw [Function.update_eq_self]
      exact stored
    · refine held_eq_some.mpr ⟨⟨⟨positive, inside⟩, ?_⟩, ?_, nonzero⟩
      · rw [Function.update_self]
        exact type
      · rw [Function.update_self]
        rfl

theorem fillIndirect_spec {a : Nat} {l : Fin nindirect}
    (stored : Stored s.image inode s.freeblock blocks bytes) (length : s.length = fssize)
    (positive : 0 < i) (inside : i < ninodes)
    (block : held s.image inode ninodes (i, .addr (Fin.last ndirect)) = some a)
    (turn : ndirect + 1 + l.val ≤ blocks i) (small : s.freeblock ≤ fssize + 1) :
    wp (fun _ => fssize ≤ a) (fillIndirect a l.val)
      (fun x t => Stored t.image inode t.freeblock
          (Function.update blocks i (max (blocks i) (ndirect + 1 + l.val + 1))) bytes ∧
        Extends s t ∧
        t.freeblock + blocks i = s.freeblock + max (blocks i) (ndirect + 1 + l.val + 1) ∧
        held t.image inode ninodes (i, .indirect l) = some x ∧
        (t.freeblock = s.freeblock ∨ x + 1 = t.freeblock)) s := by
  obtain ⟨⟨-, type⟩, isBlock, filled⟩ := held_eq_some.mp block
  have bounds := stored.bounds block
  have small : s.freeblock ≤ 1000 + 1 := small
  have present : (inode i).addrs (Fin.last ndirect) ≠ 0 := by
    rw [← isBlock] at filled
    exact toNat_ne_zero.mp filled
  have isBlock : ((inode i).addrs (Fin.last ndirect)).toNat = a := isBlock
  have value : Blocks.entry s.image (inode i) (.indirect l) = getWord (s.image a) (4 * l.val) := by
    rw [Blocks.entry, if_neg present, isBlock]
  have ranked := stored.ranked i positive inside (.indirect l)
  rw [value] at ranked
  have ranked : getWord (s.image a) (4 * l.val) ≠ 0 ↔ ndirect + 1 + l.val < blocks i := ranked
  have room : 4 * l.val + 4 ≤ bsize := by
    have bound : l.val < 128 := l.isLt
    change 4 * l.val + 4 ≤ 512
    omega
  unfold fillIndirect
  rw [wp_bind]
  refine wp_rsect_of_small length (by omega) (fun within => ?_) id
  by_cases absent : getWord (s.image a) (4 * l.val) = 0
  · have atTurn : ndirect + 1 + l.val = blocks i := by
      have zero := mt ranked.mpr (not_not.mpr absent)
      omega
    have next := stored.assign_indirect positive inside block atTurn (by omega)
    have count : max (blocks i) (ndirect + 1 + l.val + 1) = blocks i + 1 := by omega
    have stores : getWord (setWord (s.image a) (4 * l.val) s.freeblock) (4 * l.val) =
        s.freeblock := by
      rw [getWord_setWord _ _ room]
      exact Nat.mod_eq_of_lt (by omega)
    rw [if_pos absent]
    simp only [nextBlock, wp_bind, wp_get, wp_modify, wp_pure]
    rw [wp_wsect (by exact length) within, stores, count]
    have counted : Extends s { s with freeblock := s.freeblock + 1 } :=
      ⟨rfl, rfl, fun _ _ => rfl⟩
    refine ⟨next, counted.trans (extends_write bounds.1), ?_, ?_, .inr rfl⟩
    · change s.freeblock + 1 + blocks i = s.freeblock + (blocks i + 1)
      omega
    · refine held_eq_some.mpr ⟨⟨⟨positive, inside⟩, type⟩, ?_, ?_⟩
      · rw [Blocks.entry, if_neg present, isBlock]
        change getWord (Function.update s.image a _ a) _ = _
        rw [Function.update_self, stores]
      · have low := stored.nmeta_le
        have : nmeta = 59 := rfl
        omega
  · have before := ranked.mp absent
    have count : max (blocks i) (ndirect + 1 + l.val + 1) = blocks i := by omega
    rw [if_neg absent, wp_pure, count, Function.update_eq_self]
    refine ⟨stored, Extends.refl s, rfl, ?_, .inl rfl⟩
    exact held_eq_some.mpr ⟨⟨⟨positive, inside⟩, type⟩, value, absent⟩

theorem fill_spec
    (stored : Stored s.image (Function.update inode i din) s.freeblock blocks bytes)
    (length : s.length = fssize) (positive : 0 < i) (inside : i < ninodes) (type : din.type ≠ 0)
    (full : blocks i = blocksFor off) (inFile : off / bsize < maxfile)
    (bounded : s.freeblock ≤ fssize) :
    wp (fun _ => fssize + blocksFor off < s.freeblock + blocksFor (off + 1))
      (fill din (off / bsize))
      (fun result t =>
        Filled inode blocks bytes i s din (blocksFor (off + 1)) t result.1 ∧
        (∃ spot, spotOf (off / bsize) = some spot ∧
          held t.image (Function.update inode i result.1) ninodes (i, spot) = some result.2) ∧
        (t.freeblock = s.freeblock ∨ result.2 + 1 = t.freeblock)) s := by
  have inFile : off / 512 < 12 + 128 := inFile
  have bounded : s.freeblock ≤ 1000 := bounded
  have before : blocksFor off = (off + 511) / 512 + if 6144 < off then 1 else 0 := rfl
  have after : blocksFor (off + 1) = off / 512 + 1 + if 6144 < off + 1 then 1 else 0 := by
    unfold blocksFor
    omega
  unfold fill
  split
  case isTrue direct =>
    have direct : off / 512 < 12 := direct
    rw [wp_bind]
    have turn : off / 512 ≤ blocks i := by omega
    have count : max (blocks i) (off / 512 + 1) = blocksFor (off + 1) := by
      split at before <;> split at after <;> omega
    refine wp_mono (wp_allow (fillAddr_spec stored positive inside type turn (by omega)) nofun) ?_
    intro din' t ⟨filled, holds, next⟩
    rw [wp_pure]
    refine ⟨?_, ⟨_, spotOf_direct direct, holds⟩, next⟩
    rw [← count]
    exact filled
  case isFalse beyond =>
    have beyond : ¬ off / 512 < 12 := beyond
    have room : off / bsize - ndirect < nindirect := by
      change off / 512 - 12 < 128
      omega
    have turn : (Fin.last ndirect).val ≤ blocks i := by
      change 12 ≤ blocks i
      omega
    rw [wp_bind]
    refine wp_mono (wp_allow (fillAddr_spec stored positive inside type turn (by omega)) nofun) ?_
    intro din' t ⟨filled, holds, next⟩
    have taken : t.freeblock + blocks i = s.freeblock + max (blocks i) (12 + 1) := filled.taken
    rw [wp_bind]
    have length' : t.length = fssize := filled.extends'.length.trans length
    have turn' : ndirect + 1 + (off / bsize - ndirect) ≤
        Function.update blocks i (max (blocks i) ((Fin.last ndirect).val + 1)) i := by
      rw [Function.update_self]
      change 12 + 1 + (off / 512 - 12) ≤ max (blocks i) (12 + 1)
      split at before <;> omega
    have small : t.freeblock ≤ 1000 + 1 := by omega
    have spec := fillIndirect_spec (l := ⟨_, room⟩) filled.stored length' positive inside holds
      turn' small
    refine wp_mono (wp_allow spec fun _ behind => ?_) ?_
    · have behind : 1000 ≤ (din'.addrs (Fin.last ndirect)).toNat := behind
      have low := (filled.stored.bounds holds).2
      change 1000 + blocksFor off < s.freeblock + blocksFor (off + 1)
      split at before <;> split at after <;> omega
    · intro x u ⟨last, grown, taken', found, newest⟩
      rw [Function.update_idem, Function.update_self] at last
      rw [Function.update_self] at taken'
      have taken' : u.freeblock + max (blocks i) (12 + 1) = t.freeblock +
        max (max (blocks i) (12 + 1)) (12 + 1 + (off / 512 - 12) + 1) := taken'
      have count : max (max (blocks i) ((Fin.last ndirect).val + 1))
          (ndirect + 1 + (off / bsize - ndirect) + 1) = blocksFor (off + 1) := by
        change max (max (blocks i) (12 + 1)) (12 + 1 + (off / 512 - 12) + 1) = _
        split at before <;> split at after <;> omega
      rw [count] at last
      rw [wp_pure]
      refine ⟨⟨last, filled.extends'.trans grown, filled.fields, ?_⟩,
        ⟨_, spotOf_indirect beyond room, found⟩, ?_⟩
      · rw [← count]
        change u.freeblock + blocks i = s.freeblock +
          max (max (blocks i) (12 + 1)) (12 + 1 + (off / 512 - 12) + 1)
        omega
      · dsimp only
        split at before <;> split at after <;> omega

theorem filled_nil
    (stored : Stored s.image (Function.update inode i din) s.freeblock blocks bytes)
    (full : blocks i = blocksFor off) :
    Filled inode blocks (Function.update bytes i (bytes i ++ [])) i s din (blocksFor off) s
      din := by
  rw [List.append_nil, Function.update_eq_self, ← full]
  refine ⟨?_, Extends.refl s, ⟨_, rfl⟩, rfl⟩
  rw [Function.update_eq_self]
  exact stored

/-- The loop of `iappend` puts the bytes behind those of the file.  It fails only
if the file or the image becomes too long. -/
theorem appendBytes_spec {fuel : Nat} {p : List UInt8} (enough : p.length ≤ fuel)
    (stored : Stored s.image (Function.update inode i din) s.freeblock blocks bytes)
    (length : s.length = fssize) (positive : 0 < i) (inside : i < ninodes) (type : din.type ≠ 0)
    (ends : (bytes i).length = off) (full : blocks i = blocksFor off)
    (bounded : s.freeblock ≤ fssize) :
    wp (fun _ => maxfile * bsize < off + p.length ∨
        fssize + blocksFor off < s.freeblock + blocksFor (off + p.length))
      (appendBytes fuel din off p)
      (fun result t => result.2 = off + p.length ∧ (0 < p.length → result.2 ≤ maxfile * bsize) ∧
        Filled inode blocks (Function.update bytes i (bytes i ++ p)) i s din
          (blocksFor (off + p.length)) t result.1 ∧ t.freeblock ≤ fssize) s := by
  induction fuel generalizing s din off p blocks bytes with
  | zero =>
      obtain rfl : p = [] := List.eq_nil_of_length_eq_zero (Nat.le_zero.mp enough)
      rw [appendBytes, wp_pure]
      exact ⟨rfl, fun some' => absurd some' (Nat.lt_irrefl _), filled_nil stored full, bounded⟩
  | succ fuel ih =>
      unfold appendBytes
      split
      case isTrue none =>
        obtain rfl : p = [] := List.eq_nil_of_length_eq_zero none
        rw [wp_pure]
        exact ⟨rfl, fun some' => absurd some' (Nat.lt_irrefl _), filled_nil stored full, bounded⟩
      case isFalse more =>
        have bounded : s.freeblock ≤ 1000 := bounded
        dsimp only
        generalize taken : min p.length ((off / bsize + 1) * bsize - off) = n1
        have taken : min p.length ((off / 512 + 1) * 512 - off) = n1 := taken
        have some' : 0 < n1 := by omega
        have inBlock : n1 ≤ 512 - off % 512 := by omega
        have inBytes : n1 ≤ p.length := by omega
        have grows := blocksFor_add some' inBlock
        have mono : blocksFor (off + n1) ≤ blocksFor (off + p.length) :=
          blocksFor_mono (by omega)
        have least : blocksFor off ≤ blocksFor (off + 1) := blocksFor_mono (Nat.le_succ off)
        have rest : off + n1 + (p.drop n1).length = off + p.length := by
          rw [List.length_drop]
          omega
        rw [wp_bind, wp_assert]
        refine ⟨fun inFile => ?_, fun tooLong => .inl ?_⟩
        · rw [wp_bind]
          refine wp_mono (wp_allow (fill_spec stored length positive inside type full inFile
            bounded) fun _ long => .inr (by omega)) ?_
          intro ⟨din', x⟩ t ⟨filled, ⟨spot, index, holds⟩, newest⟩
          have length' : t.length = fssize := filled.extends'.length.trans length
          have bounds := filled.stored.bounds holds
          have newTaken : t.freeblock + blocks i = s.freeblock + blocksFor (off + 1) := filled.taken
          have low : nmeta ≤ x ∧ x < t.freeblock := bounds
          have newest : t.freeblock = s.freeblock ∨ x + 1 = t.freeblock := newest
          have few : blocksFor (off + 1) ≤ blocksFor off + 2 := by
            unfold blocksFor
            split <;> split <;> omega
          dsimp only
          rw [wp_bind]
          refine wp_rsect_of_small length' (by omega) (fun within => ?_) fun behind => .inr ?_
          · have within : x < 1000 := within
            have bounded' : t.freeblock ≤ 1000 := by omega
            rw [wp_bind, wp_wsect length' within]
            have offset : off - off / bsize * bsize = off % bsize := by
              change off - off / 512 * 512 = off % 512
              omega
            rw [offset]
            have appended := filled.stored.append (p := p) index holds ends inBlock
            obtain ⟨addrs, fields⟩ := filled.fields
            have fields : din' = { din with addrs := addrs } := fields
            have ends' : (Function.update bytes i (bytes i ++ p.take n1) i).length = off + n1 := by
              rw [Function.update_self, List.length_append, List.length_take, ends]
              omega
            have full' : Function.update blocks i (blocksFor (off + 1)) i =
                blocksFor (off + n1) := by
              rw [Function.update_self, grows]
            have type' : din'.type ≠ 0 := by
              rw [fields]
              exact type
            have shorter : (p.drop n1).length ≤ fuel := by
              rw [List.length_drop]
              omega
            refine wp_mono (wp_allow (ih shorter appended length' type' ends' full' bounded')
              fun _ long => ?_) ?_
            · rw [rest] at long
              refine long.imp_right fun later => ?_
              have later : fssize + blocksFor (off + n1) <
                t.freeblock + blocksFor (off + p.length) := later
              omega
            · intro ⟨din'', last⟩ u ⟨ended, most, done, least'⟩
              rw [rest] at ended done
              have ended : last = off + p.length := ended
              have all : p.take n1 ++ p.drop n1 = p := List.take_append_drop n1 p
              rw [Function.update_self, Function.update_idem, List.append_assoc, all] at done
              refine ⟨ended, fun _ => ?_, ⟨?_, ?_, ?_, ?_⟩, least'⟩
              · by_cases left : 0 < (p.drop n1).length
                · exact most left
                · have inFile : off / 512 < 12 + 128 := inFile
                  change last ≤ (12 + 128) * 512
                  omega
              · have last := done.stored
                rw [Function.update_idem] at last
                exact last
              · exact filled.extends'.trans ((extends_write bounds.1).trans done.extends')
              · obtain ⟨addrs', fields'⟩ := done.fields
                exact ⟨addrs', by rw [fields', fields]⟩
              · have more := done.taken
                rw [Function.update_self] at more
                have more : u.freeblock + blocksFor (off + 1) =
                  t.freeblock + blocksFor (off + p.length) := more
                omega
          · have behind : 1000 ≤ x := behind
            change 1000 + blocksFor off < s.freeblock + blocksFor (off + p.length)
            omega
        · have tooLong : ¬ off / 512 < 12 + 128 := tooLong
          change (12 + 128) * 512 < off + p.length
          omega

end Appending

end Xv6.Mkfs
