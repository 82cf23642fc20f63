import Xv6.BlockRoom

/-!
# Files as byte sequences

The bytes of a file are those of its blocks, up to its size.  `readi` returns a
part of them and `writei` replaces a part, perhaps with more bytes behind the
end; no other file changes.
-/

namespace Xv6.Blocks

open ByteFields BlockOwners StateTriples

namespace FsState

/-- The block with this index in a file. -/
def blockAt (s : FsState) (i bn : Nat) : Option Nat :=
  (spotOf bn).bind fun spot => s.holds (i, spot)

/-- The byte at an offset in a file, zero where there is no block. -/
def byteAt (s : FsState) (i k : Nat) : UInt8 :=
  match s.blockAt i (k / bsize) with
  | some b => s.disk b ⟨k % bsize, Nat.mod_lt k (by decide)⟩
  | none => 0

/-- The bytes of a file. -/
def content (s : FsState) (i : Nat) : List UInt8 :=
  (List.range (s.view i).size.toNat).map (s.byteAt i)

end FsState

section Contents

variable {s t u : FsState} {i b off left fuel k : Nat} {spot : Spot} {src : Nat → UInt8}
  {allowed : FsPanic → Prop}

theorem blockAt_eq_some : s.blockAt i k = some b ↔
    ∃ spot, spotOf k = some spot ∧ s.holds (i, spot) = some b :=
  Option.bind_eq_some_iff

theorem blockAt_of_covered (covered : s.Covered i off) (inside : k < off) :
    ∃ b, s.blockAt i (k / bsize) = some b := by
  have start := Nat.div_mul_le_self k bsize
  obtain ⟨spot, b, index, stored⟩ := covered (k / bsize) (by omega)
  exact ⟨b, blockAt_eq_some.mpr ⟨spot, index, stored⟩⟩

theorem byteAt_of_block (block : s.blockAt i (k / bsize) = some b) :
    s.byteAt i k = s.disk b ⟨k % bsize, Nat.mod_lt k (by decide)⟩ := by
  rw [FsState.byteAt, block]

theorem ofNat_getByte (block : Block) (offset : Nat) (inside : offset < bsize) :
    UInt8.ofNat (getByte block offset) = block ⟨offset, inside⟩ := by
  rw [getByte, dif_pos inside, UInt8.ofNat_toNat]

theorem Kept.blockAt {j : Nat} (kept : Kept s t i) (block : s.blockAt j k = some b) :
    t.blockAt j k = some b := by
  obtain ⟨spot, index, stored⟩ := blockAt_eq_some.mp block
  exact blockAt_eq_some.mpr ⟨spot, index, kept.mapped.keeps _ _ stored⟩

theorem Kept.byteAt {j : Nat} (kept : Kept s t i) (block : s.blockAt j (k / bsize) = some b) :
    t.byteAt j k = s.byteAt j k := by
  rw [byteAt_of_block block, byteAt_of_block (kept.blockAt block)]
  obtain ⟨spot, index, stored⟩ := blockAt_eq_some.mp block
  rw [kept.files _ _ (spotOf_ne_last index) stored]

/-- The bytes up to the end of the block that contains an offset. -/
theorem div_mod_add {m : Nat} (inBlock : m < bsize - off % bsize) :
    (off + m) / bsize = off / bsize ∧ (off + m) % bsize = off % bsize + m := by
  simp only [bsize] at *
  omega

theorem byteAt_add {m : Nat} (block : s.blockAt i (off / bsize) = some b)
    (inBlock : m < bsize - off % bsize) :
    s.byteAt i (off + m) = s.disk b ⟨off % bsize + m, by omega⟩ := by
  obtain ⟨quotient, remainder⟩ := div_mod_add inBlock
  rw [byteAt_of_block (b := b) (by rw [quotient, block])]
  congr 2

theorem range_split {α : Type} (f : Nat → α) {m : Nat} (less : m ≤ left) :
    (List.range left).map f =
      (List.range m).map f ++ (List.range (left - m)).map fun k => f (m + k) := by
  obtain ⟨rest, rfl⟩ := Nat.exists_eq_add_of_le less
  rw [List.range_add, List.map_append, List.map_map, Nat.add_sub_cancel_left]
  rfl

/-- The loop of `readi` copies the bytes of the file. -/
theorem readBytes_eq (valid : s.valid i = true) (covered : s.Covered i (off + left))
    (enough : left ≤ fuel) :
    readBytes i fuel off left s =
      .ok ((List.range left).map fun k => s.byteAt i (off + k), s) := by
  induction fuel generalizing off left with
  | zero =>
      rw [Nat.le_zero.mp enough]
      rfl
  | succ fuel ih =>
      unfold readBytes
      by_cases done : left = 0
      · rw [if_pos done, done]
        rfl
      · rw [if_neg done]
        obtain ⟨b, block⟩ := blockAt_of_covered (k := off) covered (by omega)
        obtain ⟨spot, index, stored⟩ := blockAt_eq_some.mp block
        have inBlock : off % bsize < bsize := Nat.mod_lt off (by decide)
        generalize chunk : min left (bsize - off % bsize) = m
        have rest : readBytes i fuel (off + m) (left - m) s = _ :=
          ih (Covered.mono covered (by omega)) (by omega)
        refine eq_of_wp ?_
        simp only [wp_bind]
        rw [wp, bmap_of_stored valid index stored]
        simp only [wp_get]
        rw [wp, rest]
        simp only [wp_pure]
        refine ⟨?_, trivial⟩
        rw [range_split _ (by omega : m ≤ left)]
        congr 1
        · refine List.map_congr_left fun k isHere => ?_
          have inside := List.mem_range.mp isHere
          rw [byteAt_add block (by omega), ofNat_getByte]
        · simp only [Nat.add_assoc]

theorem spotOf_injective {first second : Nat} (one : spotOf first = some spot)
    (two : spotOf second = some spot) : first = second := by
  unfold spotOf at one two
  split at one
  · cases one
    split at two
    · exact (congrArg Fin.val (Spot.addr.inj (Option.some.inj two))).symm
    · split at two
      · cases two
      · cases two
  · split at one
    · cases one
      split at two
      · cases two
      · split at two
        · have equal := congrArg Fin.val (Spot.indirect.inj (Option.some.inj two))
          simp only at equal
          omega
        · cases two
    · cases one

/-- Two bytes of files in one block. -/
theorem blockAt_injective {j l : Nat} (ok : Ok s) (one : s.blockAt i k = some b)
    (two : s.blockAt j l = some b) : i = j ∧ k = l := by
  obtain ⟨first, index, stored⟩ := blockAt_eq_some.mp one
  obtain ⟨second, otherIndex, otherStored⟩ := blockAt_eq_some.mp two
  obtain ⟨sameInode, rfl⟩ := Prod.mk.inj (ok.accounts.apart stored otherStored)
  exact ⟨sameInode, spotOf_injective index otherIndex⟩

theorem blockAt_congr (holds : ∀ place, t.holds place = s.holds place) (j bn : Nat) :
    t.blockAt j bn = s.blockAt j bn := by
  unfold FsState.blockAt
  simp only [holds]

/-- The bytes of the write are in the file, and all other bytes of files that had a
block are as before. -/
structure Written (s t : FsState) (i off n : Nat) (src : Nat → UInt8) : Prop where
  ok : Ok t
  mapped : Mapped s t i
  covered : t.Covered i (off + n)
  still : s.Covered i (off + n) → t.inode i = s.inode i
  here : ∀ k, k < n → t.byteAt i (off + k) = src k
  elsewhere : ∀ j k b, s.blockAt j (k / bsize) = some b →
    j ≠ i ∨ k < off ∨ off + n ≤ k → t.byteAt j k = s.byteAt j k

/-- The `memmove` into one block. -/
theorem written_setBlock {m : Nat} (ok : Ok s) (covered : s.Covered i off)
    (block : s.blockAt i (off / bsize) = some b) (fits : m ≤ bsize - off % bsize) :
    Written s (s.setBlock b (copyInto (s.disk b) (off % bsize) m src)) i off m src := by
  obtain ⟨spot, index, stored⟩ := blockAt_eq_some.mp block
  obtain ⟨okU, same, holds⟩ := setBlock_file (copyInto (s.disk b) (off % bsize) m src) ok stored
    (spotOf_ne_last index)
  have mapped : Mapped s (s.setBlock b (copyInto (s.disk b) (off % bsize) m src)) i :=
    Mapped.of_same same holds
  have blocks := blockAt_congr holds
  have written : (s.setBlock b (copyInto (s.disk b) (off % bsize) m src)).disk b =
      copyInto (s.disk b) (off % bsize) m src := Function.update_self ..
  refine ⟨okU, mapped, covered_step (mapped.covered covered) index (mapped.keeps _ _ stored) fits,
    fun _ => by rw [same.inode], fun k inside => ?_, fun j k c present outside => ?_⟩
  · rw [byteAt_add ((blocks ..).trans block) (by omega), written, copyInto,
      if_pos ⟨Nat.le_add_right _ _, Nat.add_lt_add_left inside _⟩]
    congr 1
    exact Nat.add_sub_cancel_left ..
  · rw [byteAt_of_block ((blocks ..).trans present), byteAt_of_block present]
    by_cases shared : c = b
    · subst shared
      obtain ⟨rfl, sameBlock⟩ := blockAt_injective ok block present
      have apart : ¬(off % bsize ≤ k % bsize ∧ k % bsize < off % bsize + m) := by
        simp only [bsize] at *
        omega
      rw [written, copyInto, if_neg apart]
    · exact congrFun (Function.update_of_ne shared ..) _

theorem Written.refl (ok : Ok s) (covered : s.Covered i off) : Written s s i off 0 src :=
  ⟨ok, Mapped.refl s i, covered, fun _ => rfl, fun k inside => absurd inside (Nat.not_lt_zero k),
    fun _ _ _ _ _ => rfl⟩

/-- `bmap` and then the `memmove`. -/
theorem Written.of_kept {n : Nat} (kept : Kept s t i)
    (unchanged : s.Covered i (off + n) → t = s) (written : Written t u i off n src) :
    Written s u i off n src where
  ok := written.ok
  mapped := kept.mapped.trans written.mapped
  covered := written.covered
  still all := by
    rw [written.still (kept.mapped.covered all), unchanged all]
  here := written.here
  elsewhere j k b present outside := by
    rw [written.elsewhere j k b (kept.blockAt present) outside, kept.byteAt present]

/-- A write of some bytes, then of those behind them. -/
theorem Written.trans {m n : Nat} (less : m ≤ n) (first : Written s t i off m src)
    (second : Written t u i (off + m) (n - m) fun k => src (k + m)) :
    Written s u i off n src := by
  have whole : off + m + (n - m) = off + n := by omega
  have blocks {j k b : Nat} (block : s.blockAt j k = some b) : t.blockAt j k = some b := by
    obtain ⟨spot, index, stored⟩ := blockAt_eq_some.mp block
    exact blockAt_eq_some.mpr ⟨spot, index, first.mapped.keeps _ _ stored⟩
  refine ⟨second.ok, first.mapped.trans second.mapped, whole ▸ second.covered, fun all => ?_,
    fun k inside => ?_, fun j k b present outside => ?_⟩
  · rw [second.still (whole.symm ▸ first.mapped.covered all),
      first.still (Covered.mono all (by omega))]
  · by_cases early : k < m
    · obtain ⟨b, block⟩ := blockAt_of_covered (k := off + k) first.covered (by omega)
      rw [second.elsewhere i (off + k) b block (.inr (.inl (by omega))), first.here k early]
    · have late := second.here (k - m) (by omega)
      rw [show off + m + (k - m) = off + k by omega, show k - m + m = k by omega] at late
      exact late
  · rw [second.elsewhere j k b (blocks present) (by omega),
      first.elsewhere j k b present (by omega)]

/-- The loop of `writei` writes its bytes. -/
theorem writeBytes_written (ok : Ok s) (valid : s.valid i = true)
    (covered : s.Covered i off) (enough : left ≤ fuel)
    (room : allowed .outOfBlocks ∨ s.Room i off left)
    (small : off + left ≤ maxfile * bsize) :
    wp allowed (writeBytes i fuel src off left)
      (fun last t => last = off + left ∧ Written s t i off left src) s := by
  induction fuel generalizing s src off left with
  | zero =>
      rw [Nat.le_zero.mp enough]
      exact ⟨rfl, Written.refl ok covered⟩
  | succ fuel ih =>
      unfold writeBytes
      by_cases done : left = 0
      · subst done
        rw [if_pos rfl]
        exact ⟨rfl, Written.refl ok covered⟩
      · rw [if_neg done]
        simp only [wp_bind]
        have inFile : off / bsize < maxfile := by
          simp only [bsize, maxfile, ndirect, nindirect] at *
          omega
        refine wp_mono (bmap_room_stored ok valid room (Nat.pos_of_ne_zero done) inFile)
          fun b t holds => ?_
        obtain ⟨⟨kept, roomT, spot, index, stored⟩, unchanged⟩ := holds
        simp only [wp_modify]
        have inBlock : off % bsize < bsize := Nat.mod_lt off (by decide)
        generalize chunk : min left (bsize - off % bsize) = m
        have block : t.blockAt i (off / bsize) = some b :=
          blockAt_eq_some.mpr ⟨spot, index, stored⟩
        have moved : Written t (t.setBlock b (copyInto (t.disk b) (off % bsize) m src))
            i off m src :=
          written_setBlock kept.ok (kept.mapped.covered covered) block (by omega)
        obtain ⟨_, same, holds⟩ := setBlock_file (copyInto (t.disk b) (off % bsize) m src)
          kept.ok stored (spotOf_ne_last index)
        have first : Written s (t.setBlock b (copyInto (t.disk b) (off % bsize) m src))
            i off m src := by
          refine moved.of_kept kept fun all => ?_
          obtain ⟨c, present⟩ := blockAt_of_covered (k := off) all (by omega)
          obtain ⟨spot, index, stored⟩ := blockAt_eq_some.mp present
          exact unchanged spot c index stored
        have data : t.sb.nmeta ≤ b := (kept.ok.isData stored).1
        have roomU : allowed .outOfBlocks ∨
            (t.setBlock b (copyInto (t.disk b) (off % bsize) m src)).Room i
              (off + m) (left - m) := by
          refine roomT.imp_right fun roomT => room_rest (by omega)
            (room_congr (s := t) rfl (fun c inside => ?_) (fun spot => holds (i, spot)) roomT)
          exact bit_setBlock_of_data kept.ok.layout data inside
        refine wp_mono (ih moved.ok ?_ first.covered (by omega) roomU (by omega))
          fun last v holds => ?_
        · rw [first.mapped.valid]
          exact valid
        · obtain ⟨reached, second⟩ := holds
          exact ⟨by omega, first.trans (by omega) second⟩

theorem splice_range {f f' : Nat → UInt8} {size n : Nat} (inside : off ≤ size)
    (here : ∀ k, k < n → f' (off + k) = src k)
    (elsewhere : ∀ k, k < size → k < off ∨ off + n ≤ k → f' k = f k) :
    (List.range (max size (off + n))).map f' =
      ((List.range size).map f).take off ++ (List.range n).map src ++
        ((List.range size).map f).drop (off + n) := by
  rw [range_split f' (by omega : off + n ≤ max size (off + n)),
    range_split f' (Nat.le_add_right off n), Nat.add_sub_cancel_left]
  congr 1
  · congr 1
    · rw [range_split f inside, List.take_left' (by simp)]
      refine List.map_congr_left fun k isHere => ?_
      have low := List.mem_range.mp isHere
      exact elsewhere k (by omega) (.inl low)
    · exact List.map_congr_left fun k isHere => here k (List.mem_range.mp isHere)
  · by_cases longer : off + n ≤ size
    · rw [range_split f longer, List.drop_left' (by simp), Nat.max_eq_left longer]
      refine List.map_congr_left fun k isHere => ?_
      have low := List.mem_range.mp isHere
      exact elsewhere _ (by omega) (.inr (by omega))
    · rw [Nat.max_eq_right (by omega), Nat.sub_self, List.drop_eq_nil_of_le]
      · rfl
      · rw [List.length_map, List.length_range]
        omega

theorem take_drop_range {f : Nat → UInt8} {size n : Nat} (inside : off ≤ size) :
    (((List.range size).map f).drop off).take n =
      (List.range (min n (size - off))).map fun k => f (off + k) := by
  rw [range_split f inside, List.drop_left' (by simp), ← List.map_take, List.take_range]

theorem length_content (s : FsState) (i : Nat) :
    (s.content i).length = (s.view i).size.toNat := by
  rw [FsState.content, List.length_map, List.length_range]

/-- A sum of two `uint`s that has wrapped. -/
theorem add_lt_iff_wraps {off n : UInt32} :
    off + n < off ↔ 2 ^ 32 ≤ off.toNat + n.toNat := by
  rw [UInt32.lt_iff_toNat_lt, UInt32.toNat_add]
  have first := off.toNat_lt
  have second := n.toNat_lt
  omega

/-- `readi` returns a part of the file. -/
theorem readi_eq (devsw : UInt16 → UInt32 → Int) (settled : Settled s)
    (valid : s.valid i = true) (file : (s.inode i).type ≠ tDev) (off n : UInt32) :
    readi devsw i off n s =
      if (s.content i).length < off.toNat ∨ 2 ^ 32 ≤ off.toNat + n.toNat then
        .ok ((-1, []), s)
      else
        let bytes := ((s.content i).drop off.toNat).take n.toNat
        .ok ((bytes.length, bytes), s) := by
  have covered := settled.covered valid
  rw [length_content, FsState.content, view_of_valid valid]
  unfold readi
  rw [bind_of_ok (get_apply s)]
  dsimp only
  have test : ((s.inode i).size < off ∨ off + n < off) ↔
      ((s.inode i).size.toNat < off.toNat ∨ 2 ^ 32 ≤ off.toNat + n.toNat) :=
    or_congr UInt32.lt_iff_toNat_lt add_lt_iff_wraps
  rw [if_neg file]
  by_cases refused : (s.inode i).size.toNat < off.toNat ∨ 2 ^ 32 ≤ off.toNat + n.toNat
  · rw [if_pos (test.mpr refused), if_pos refused]
    rfl
  · rw [if_neg (mt test.mp refused), if_neg refused]
    obtain ⟨within, fits⟩ := not_or.mp refused
    have sum : (off + n).toNat = off.toNat + n.toNat :=
      toNat_add_of_le (mt add_lt_iff_wraps.mp fits)
    have count : (if (s.inode i).size < off + n then (s.inode i).size - off else n).toNat =
        min n.toNat ((s.inode i).size.toNat - off.toNat) := by
      split
      · rename_i past
        rw [UInt32.lt_iff_toNat_lt, sum] at past
        rw [UInt32.toNat_sub_of_le _ _ (UInt32.le_iff_toNat_le.mpr (by omega))]
        omega
      · rename_i short
        rw [UInt32.lt_iff_toNat_lt, sum] at short
        omega
    rw [take_drop_range (by omega), count,
      bind_of_ok (readBytes_eq valid (Covered.mono covered (by omega)) (Nat.le_refl _)),
      List.length_map, List.length_range]
    rfl

/-- The same blocks with the same bytes. -/
theorem byteAt_congr (ok : Ok s) (holds : ∀ place, t.holds place = s.holds place)
    (disk : ∀ c, s.sb.nmeta ≤ c → t.disk c = s.disk c) (j k : Nat) :
    t.byteAt j k = s.byteAt j k := by
  have sameBlock := blockAt_congr holds j (k / bsize)
  cases block : s.blockAt j (k / bsize) with
  | none => rw [FsState.byteAt, FsState.byteAt, sameBlock, block]
  | some b =>
      obtain ⟨spot, _, stored⟩ := blockAt_eq_some.mp block
      rw [byteAt_of_block block, byteAt_of_block (sameBlock.trans block),
        disk b (ok.isData stored).1]

/-- The new size is stored in memory and on the disk. -/
theorem grow_eq {size : UInt32} (ok : Ok s) (valid : s.valid i = true)
    (grown : s.setInode i { s.inode i with size := size } = t) :
    (∀ j k, (t.setDinode i (t.inode i)).byteAt j k = s.byteAt j k) ∧
      ((t.setDinode i (t.inode i)).view i).size = size ∧
      ∀ j, j ≠ i → (t.setDinode i (t.inode i)).view j = s.view j := by
  have type : (s.inode i).type ≠ 0 := (ok.live i valid).2
  obtain ⟨okT, holds⟩ := setFields_ok (d := { s.inode i with size := size }) ok valid type rfl
  rw [grown] at okT holds
  have validT : t.valid i = true := by rw [← grown]; exact valid
  have sameDisk : t.disk = s.disk := by rw [← grown]; rfl
  have sb : t.sb = s.sb := by rw [← grown]; rfl
  have inodeT : t.inode i = { s.inode i with size := size } := by
    rw [← grown]
    exact Function.update_self ..
  obtain ⟨_, view, holdsU⟩ := iupdate_ok okT validT
  obtain ⟨_, _, disk⟩ := setDinode_frame (d := t.inode i) okT.layout (okT.live i validT).1.2
  refine ⟨byteAt_congr ok (fun place => (holdsU place).trans (holds place)) fun c data => ?_,
    ?_, fun j other => ?_⟩
  · rw [disk c (sb ▸ data), sameDisk]
  · rw [view, view_of_valid validT, inodeT]
  · rw [view j, ← grown]
    change (if s.valid j then (s.setInode i _).inode j else s.dinode j) = _
    rw [show (s.setInode i { s.inode i with size := size }).inode j = s.inode j from
      Function.update_of_ne other ..]
    rfl

theorem Mapped.view_of_ne {j : Nat} (mapped : Mapped s t i) (other : j ≠ i)
    (inode : s.IsInode j) : t.view j = s.view j := by
  unfold FsState.view
  rw [mapped.valid, mapped.others j other, mapped.dinode j inode.2]

/-- The bytes of files after a write, once the size is stored. -/
theorem Written.content {n : Nat} (settled : Settled s) (written : Written s t i off n src)
    (allocated : s.Allocated i) (within : off ≤ (s.view i).size.toNat)
    (bytes : ∀ j k, u.byteAt j k = t.byteAt j k)
    (size : (u.view i).size.toNat = max (s.view i).size.toNat (off + n))
    (others : ∀ j, j ≠ i → s.IsInode j → u.view j = s.view j) :
    u.content i = (s.content i).take off ++ (List.range n).map src ++
        (s.content i).drop (off + n) ∧
      ∀ j, j ≠ i → s.Allocated j → u.content j = s.content j := by
  refine ⟨?_, fun j other isHere => ?_⟩
  · rw [FsState.content, size, FsState.content]
    refine splice_range within (fun k inside => ?_) fun k inside outside => ?_
    · rw [bytes, written.here k inside]
    · obtain ⟨b, block⟩ := blockAt_of_covered (settled.noHole i allocated) inside
      rw [bytes, written.elsewhere i k b block (.inr outside)]
  · rw [FsState.content, FsState.content, others j other isHere.1]
    refine List.map_congr_left fun k inside => ?_
    obtain ⟨b, block⟩ := blockAt_of_covered (settled.noHole j isHere) (List.mem_range.mp inside)
    rw [bytes, written.elsewhere j k b block (.inl other)]

/-- What `writei` refuses. -/
theorem writei_refused (devsw : UInt16 → UInt32 → Int) (valid : s.valid i = true)
    (file : (s.inode i).type ≠ tDev) {off n : UInt32}
    (refused : (s.content i).length < off.toNat ∨ 2 ^ 32 ≤ off.toNat + n.toNat ∨
      maxfile * bsize < off.toNat + n.toNat) :
    writei devsw i src off n s = .ok (-1, s) := by
  rw [length_content, view_of_valid valid, ← UInt32.lt_iff_toNat_lt, ← or_assoc,
    ← add_lt_iff_wraps] at refused
  unfold writei
  rw [bind_of_ok (get_apply s)]
  dsimp only
  rw [if_neg file]
  by_cases wrong : (s.inode i).size < off ∨ off + n < off
  · rw [if_pos wrong]
    rfl
  · rw [if_neg wrong]
    have long : maxfile * bsize < (off + n).toNat := by
      rw [toNat_add_of_le (not_or.mp wrong).2]
      exact refused.resolve_left wrong
    rw [if_pos long]
    rfl

/-- A part of the file is replaced, and no other file changes. -/
structure Spliced (s t : FsState) (i off n : Nat) (src : Nat → UInt8) : Prop where
  here : t.content i =
    (s.content i).take off ++ (List.range n).map src ++ (s.content i).drop (off + n)
  others : ∀ j, j ≠ i → s.Allocated j → t.content j = s.content j
  ref : t.ref = s.ref
  valid : t.valid = s.valid
  type : (t.inode i).type = (s.inode i).type

/-- `writei` replaces a part of the file, unless it runs out of blocks. -/
theorem writei_accepted (devsw : UInt16 → UInt32 → Int) (settled : Settled s)
    (valid : s.valid i = true) (file : (s.inode i).type ≠ tDev) {off n : UInt32}
    (accepted : ¬((s.content i).length < off.toNat ∨ 2 ^ 32 ≤ off.toNat + n.toNat ∨
      maxfile * bsize < off.toNat + n.toNat))
    (room : allowed .outOfBlocks ∨ s.Room i off.toNat n.toNat) :
    wp allowed (writei devsw i src off n)
      (fun r t => r = n.toNat ∧ Spliced s t i off.toNat n.toNat src) s := by
  have covered := settled.covered valid
  rw [length_content, view_of_valid valid, not_or, not_or] at accepted
  obtain ⟨within, fits, small⟩ := accepted
  have sum : (off + n).toNat = off.toNat + n.toNat :=
    toNat_add_of_le (mt add_lt_iff_wraps.mp fits)
  have test : ¬((s.inode i).size < off ∨ off + n < off) := by
    rw [UInt32.lt_iff_toNat_lt, add_lt_iff_wraps]
    exact not_or.mpr ⟨within, fits⟩
  unfold writei
  simp only [wp_bind, wp_get]
  rw [if_neg file, if_neg test, if_neg (by rw [sum]; exact small)]
  simp only [wp_bind]
  refine wp_mono (writeBytes_written settled.ok valid
    (Covered.mono covered (Nat.le_of_not_lt within)) (Nat.le_refl _) room
    (Nat.le_of_not_lt small)) fun last t holds => ?_
  obtain ⟨reached, written⟩ := holds
  subst reached
  have allocated := allocated_of_valid settled.ok valid
  have validT : t.valid i = true := by rw [written.mapped.valid, valid]
  have viewS : s.view i = s.inode i := view_of_valid valid
  have type : (t.inode i).type = (s.inode i).type := by
    obtain ⟨addrs, fields⟩ := written.mapped.fields
    rw [fields]
  by_cases grows : 0 < n ∧ (s.inode i).size.toNat < off.toNat + n.toNat
  · rw [if_pos grows]
    obtain ⟨bytes, size, others⟩ := grow_eq (t := t.setInode i { t.inode i with
      size := UInt32.ofNat (off.toNat + n.toNat) }) written.ok validT rfl
    simp only [wp_bind, wp_modify, iupdate, wp_pure]
    obtain ⟨here, elsewhere⟩ := written.content settled allocated
      (viewS ▸ Nat.le_of_not_lt within) bytes
      (by
        rw [size, viewS, UInt32.toNat_ofNat_of_lt' (Nat.lt_of_not_le fits)]
        exact (Nat.max_eq_right grows.2.le).symm)
      fun j other inode => by rw [others j other, written.mapped.view_of_ne other inode]
    refine ⟨trivial, here, elsewhere, written.mapped.ref, written.mapped.valid, ?_⟩
    have stored : (t.setInode i { t.inode i with
        size := UInt32.ofNat (off.toNat + n.toNat) }).inode i = _ := Function.update_self ..
    exact (congrArg Dinode.type stored).trans type
  · rw [if_neg grows]
    have inside : off.toNat + n.toNat ≤ (s.inode i).size.toNat := by
      by_cases empty : n.toNat = 0
      · omega
      · have some : 0 < n := by
          rw [UInt32.lt_iff_toNat_lt]
          exact Nat.pos_of_ne_zero empty
        exact Nat.le_of_not_lt fun longer => grows ⟨some, longer⟩
    have same := written.still (Covered.mono covered inside)
    simp only [wp_pure]
    obtain ⟨here, elsewhere⟩ := written.content settled allocated
      (viewS ▸ Nat.le_of_not_lt within) (fun _ _ => rfl)
      (by
        rw [view_of_valid validT, same, viewS]
        exact (Nat.max_eq_left inside).symm)
      fun j other inode => written.mapped.view_of_ne other inode
    exact ⟨trivial, here, elsewhere, written.mapped.ref, written.mapped.valid, type⟩

/-- A file is a byte sequence: `readi` returns -1 or a part of it, `writei` returns -1
and does nothing or, with enough free blocks, replaces a part and leaves all other
files alone. -/
theorem readi_writei_content (devsw : UInt16 → UInt32 → Int) (settled : Settled s)
    (valid : s.valid i = true) (file : (s.inode i).type ≠ tDev) (src : Nat → UInt8)
    (off n : UInt32) :
    (readi devsw i off n s =
      if (s.content i).length < off.toNat ∨ 2 ^ 32 ≤ off.toNat + n.toNat then
        .ok ((-1, []), s)
      else
        let bytes := ((s.content i).drop off.toNat).take n.toNat
        .ok ((bytes.length, bytes), s)) ∧
    (((s.content i).length < off.toNat ∨ 2 ^ 32 ≤ off.toNat + n.toNat ∨
        maxfile * bsize < off.toNat + n.toNat) →
      writei devsw i src off n s = .ok (-1, s)) ∧
    (¬((s.content i).length < off.toNat ∨ 2 ^ 32 ≤ off.toNat + n.toNat ∨
        maxfile * bsize < off.toNat + n.toNat) → s.Room i off.toNat n.toNat →
      ∃ t, writei devsw i src off n s = .ok (n.toNat, t) ∧ Settled t ∧
        t.content i = (s.content i).take off.toNat ++ (List.range n.toNat).map src ++
          (s.content i).drop (off.toNat + n.toNat) ∧
        ∀ j, j ≠ i → s.Allocated j → t.content j = s.content j) := by
  refine ⟨readi_eq devsw settled valid file off n, writei_refused devsw valid file,
    fun accepted room => ?_⟩
  have accept : wp (fun _ => False) (writei devsw i src off n) _ s :=
    writei_accepted devsw settled valid file accepted (.inr room)
  obtain ⟨_, t, ran, rfl, spliced⟩ := ok_of_wp accept
  exact ⟨t, ran, post_of_wp (writei_spec settled valid src off n) ran, spliced.here,
    spliced.others⟩

end Contents

/-- The places of a file of 13 blocks. -/
theorem missing_emptyFile (s : FsState) (i : Nat) : (s.missing i 0 6656).card ≤ 14 := by
  have count : ((Finset.univ.image Spot.addr) ∪
      {Spot.indirect ⟨0, by decide⟩} : Finset Spot).card = 14 := by
    decide +kernel
  rw [← count]
  refine Finset.card_le_card fun spot isMissing => ?_
  obtain ⟨k, _, high, used⟩ := (mem_missing.mp isMissing).1
  refine Finset.mem_union.mpr ?_
  cases spot with
  | addr l => exact .inl (Finset.mem_image_of_mem _ (Finset.mem_univ l))
  | indirect j =>
      refine .inr (Finset.mem_singleton.mpr (congrArg Spot.indirect (Fin.ext ?_)))
      rcases used with index | ⟨_, isLast⟩
      · unfold spotOf at index
        split at index
        · cases index
        · split at index
          · cases index
            simp only [bsize, ndirect] at *
            omega
          · cases index
      · cases isLast

/-- A file that takes all blocks of the small disk. -/
theorem wholeDisk_content :
    ∃ s t, LabelledRuns.run (step fun _ _ => -1) emptyFs [.ialloc tFile, .ilock 1] = some s ∧
      s.freeBlocks.card = 14 ∧ s.content 1 = [] ∧
      writei (fun _ _ => -1) 1 (fun _ => 7) 0 6656 s = .ok (6656, t) ∧
      t.content 1 = List.replicate 6656 7 := by
  have made : ((LabelledRuns.run (step fun _ _ => -1) emptyFs [.ialloc tFile, .ilock 1]).map
      fun s => (s.freeBlocks.card, s.valid 1, (s.inode 1).type, (s.inode 1).size)) =
        some (14, true, tFile, 0) := by
    decide +kernel
  obtain ⟨s, ran, facts⟩ := Option.map_eq_some_iff.mp made
  obtain ⟨free, valid, type, size⟩ : s.freeBlocks.card = 14 ∧ s.valid 1 = true ∧
      (s.inode 1).type = tFile ∧ (s.inode 1).size = 0 := by
    simpa only [Prod.mk.injEq] using facts
  have settled : Settled s :=
    LabelledRuns.invariant_of_run settled_of_step (settled_of_start start_emptyFs) ran
  have empty : s.content 1 = [] := by
    rw [FsState.content, view_of_valid valid, size]
    rfl
  have file : (s.inode 1).type ≠ tDev := by
    rw [type]
    decide
  have room : s.Room 1 0 6656 := (missing_emptyFile s 1).trans free.ge
  obtain ⟨t, wrote, _, here, _⟩ := (readi_writei_content (fun _ _ => -1) settled valid file
    (fun _ => 7) 0 6656).2.2 (by rw [empty]; decide) room
  refine ⟨s, t, ran, free, empty, wrote, ?_⟩
  rw [here, empty, List.take_nil, List.drop_nil, List.append_nil, List.nil_append,
    List.map_const', List.length_range]
  rfl

end Xv6.Blocks
