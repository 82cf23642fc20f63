import Mathlib.Data.Finset.Card
import Mathlib.Data.Fintype.Sum
import Mathlib.Tactic.DeriveFintype
import Xv6.BlockOperations

/-!
# Room for a write

`bmap` panics when it needs a block and none is free.  The places that a write
fills are counted here, and a write for which there are as many free blocks as
places to fill gets all its blocks.  The rules also hold where running out of
blocks is an allowed end.
-/

namespace Xv6.Blocks

open ByteFields BlockOwners StateTriples

deriving instance Fintype for Spot

/-- `bmap` uses this place for a byte of the write. -/
def Touches (off n : Nat) (spot : Spot) : Prop :=
  ∃ k, off ≤ k ∧ k < off + n ∧
    (spotOf (k / bsize) = some spot ∨
      ndirect ≤ k / bsize ∧ spot = .addr (Fin.last ndirect))

namespace FsState

open Classical in
/-- The places that a write has to fill. -/
noncomputable def missing (s : FsState) (i off n : Nat) : Finset Spot :=
  Finset.univ.filter fun spot => Touches off n spot ∧ s.holds (i, spot) = none

/-- The blocks that are not marked in the bitmap. -/
def freeBlocks (s : FsState) : Finset Nat :=
  (Finset.range s.sb.size).filter fun b => s.bit b = false

/-- There are enough free blocks for a write. -/
def Room (s : FsState) (i off n : Nat) : Prop :=
  (s.missing i off n).card ≤ s.freeBlocks.card

end FsState

section Room

variable {s t u : FsState} {i b off n m : Nat} {spot : Spot} {allowed : FsPanic → Prop}

theorem mem_missing : spot ∈ s.missing i off n ↔
    Touches off n spot ∧ s.holds (i, spot) = none := by
  classical
  rw [FsState.missing, Finset.mem_filter]
  exact and_iff_right (Finset.mem_univ spot)

theorem mem_freeBlocks : b ∈ s.freeBlocks ↔ b < s.sb.size ∧ s.bit b = false := by
  rw [FsState.freeBlocks, Finset.mem_filter, Finset.mem_range]

/-- `balloc` succeeds when there is a free block. -/
theorem balloc_fresh (ok : Ok s) (free : allowed .outOfBlocks ∨ s.freeBlocks.Nonempty) :
    wp allowed balloc (fun b t => Fresh s t b) s := by
  have spec := balloc_spec ok
  unfold balloc at spec ⊢
  cases found : (List.range s.sb.size).find? fun b => !s.bit b with
  | none =>
      simp only [wp_bind, wp_get, found, wp_throw]
      refine free.resolve_right fun some => ?_
      obtain ⟨b, isFree⟩ := some
      obtain ⟨inside, clear⟩ := mem_freeBlocks.mp isFree
      have marked := List.find?_eq_none.mp found b (List.mem_range.mpr inside)
      rw [clear] at marked
      exact marked rfl
  | some c =>
      simp only [wp_bind, wp_get, found] at spec ⊢
      exact spec

/-- The rest of a write needs no more room. -/
theorem Touches.of_rest (less : m ≤ n) (touches : Touches (off + m) (n - m) spot) :
    Touches off n spot := by
  obtain ⟨k, low, high, used⟩ := touches
  exact ⟨k, by omega, by omega, used⟩

theorem room_rest (less : m ≤ n) (room : s.Room i off n) :
    s.Room i (off + m) (n - m) := by
  refine le_trans (Finset.card_le_card fun spot isMissing => ?_) room
  obtain ⟨touches, empty⟩ := mem_missing.mp isMissing
  exact mem_missing.mpr ⟨touches.of_rest less, empty⟩

theorem room_congr (sb : t.sb = s.sb) (bits : ∀ c, c < s.sb.size → t.bit c = s.bit c)
    (holds : ∀ spot, t.holds (i, spot) = s.holds (i, spot)) (room : s.Room i off n) :
    t.Room i off n := by
  have sameMissing : t.missing i off n = s.missing i off n := by
    ext spot
    rw [mem_missing, mem_missing, holds]
  have sameFree : t.freeBlocks = s.freeBlocks := by
    ext c
    rw [mem_freeBlocks, mem_freeBlocks, sb]
    exact and_congr_right fun inside => by rw [bits c inside]
  rw [FsState.Room, sameMissing, sameFree]
  exact room

/-- A block was found at a place, or put there. -/
structure Provided (s t : FsState) (i : Nat) (spot : Spot) (b : Nat) : Prop where
  ok : Ok t
  mapped : Mapped s t i
  here : t.holds (i, spot) = some b
  files : ∀ place c, place.2 ≠ .addr (Fin.last ndirect) → s.holds place = some c →
    t.disk c = s.disk c
  cost : t = s ∨ s.holds (i, spot) = none ∧ s.bit b = false ∧ b < s.sb.size ∧
    ∀ c, c < s.sb.size → t.bit c = (decide (c = b) || s.bit c)

/-- A place that is filled takes one block. -/
theorem Provided.room (provided : Provided s t i spot b) (touches : Touches off n spot)
    (room : s.Room i off n) : t.Room i off n := by
  rcases provided.cost with rfl | ⟨empty, free, inside, bits⟩
  · exact room
  · have isMissing : spot ∈ s.missing i off n := mem_missing.mpr ⟨touches, empty⟩
    have isFree : b ∈ s.freeBlocks := mem_freeBlocks.mpr ⟨inside, free⟩
    have fewer : t.missing i off n ⊆ (s.missing i off n).erase spot := by
      intro other isHere
      obtain ⟨touched, none⟩ := mem_missing.mp isHere
      refine Finset.mem_erase.mpr ⟨?_, mem_missing.mpr ⟨touched, ?_⟩⟩
      · rintro rfl
        rw [provided.here] at none
        cases none
      · rw [Option.eq_none_iff_forall_ne_some]
        intro c stored
        rw [provided.mapped.keeps _ _ stored] at none
        cases none
    have left : s.freeBlocks.erase b ⊆ t.freeBlocks := by
      intro c isHere
      obtain ⟨other, wasFree⟩ := Finset.mem_erase.mp isHere
      obtain ⟨bound, clear⟩ := mem_freeBlocks.mp wasFree
      refine mem_freeBlocks.mpr ⟨provided.mapped.sb ▸ bound, ?_⟩
      rw [bits c bound, clear, decide_eq_false other, Bool.or_false]
    have missingCount := Finset.card_le_card fewer
    have freeCount := Finset.card_le_card left
    rw [Finset.card_erase_of_mem isMissing] at missingCount
    rw [Finset.card_erase_of_mem isFree] at freeCount
    have before : (s.missing i off n).card ≤ s.freeBlocks.card := room
    have after : (t.missing i off n).card ≤ t.freeBlocks.card := by omega
    exact after

/-- A place that a write has to fill gets a block. -/
theorem free_of_room (room : allowed .outOfBlocks ∨ s.Room i off n)
    (touches : Touches off n spot) (empty : s.holds (i, spot) = none) :
    allowed .outOfBlocks ∨ s.freeBlocks.Nonempty := by
  refine room.imp_right fun room => Finset.card_pos.mp (lt_of_lt_of_le ?_ room)
  exact Finset.card_pos.mpr ⟨spot, mem_missing.mpr ⟨touches, empty⟩⟩

theorem Provided.of_stored (ok : Ok s) (stored : s.holds (i, spot) = some b) :
    Provided s s i spot b :=
  ⟨ok, Mapped.refl s i, stored, fun _ _ _ _ => rfl, .inl rfl⟩

/-- `bmapAddr` with a free block where it needs one. -/
theorem bmapAddr_provided {k : Fin (ndirect + 1)} (ok : Ok s) (valid : s.valid i = true)
    (free : s.holds (i, .addr k) = none →
      allowed .outOfBlocks ∨ s.freeBlocks.Nonempty) :
    wp allowed (bmapAddr i k) (fun b t => Provided s t i (.addr k) b) s := by
  cases before : s.holds (i, .addr k) with
  | some b =>
      rw [wp, bmapAddr_of_stored valid before]
      exact Provided.of_stored ok before
  | none =>
      have empty : (s.inode i).addrs k = 0 := by
        by_contra present
        have stored : s.holds (i, .addr k) = some ((s.inode i).addrs k).toNat := by
          refine holds_eq_some.mpr ⟨allocated_of_valid ok valid, ?_, toNat_ne_zero.mpr present⟩
          rw [view_of_valid valid, entry]
        rw [before] at stored
        cases stored
      unfold bmapAddr
      simp only [wp_bind, wp_get, if_pos empty]
      refine wp_mono (balloc_fresh ok (free before)) fun b t fresh => ?_
      simp only [wp_modify, wp_pure]
      obtain ⟨okay, mapped, here⟩ := assign_addr ok fresh valid empty
      refine ⟨okay, mapped, here, fun place c _ stored => ?_, .inr ⟨before, fresh.free,
        fresh.data.2, fresh.bits⟩⟩
      exact fresh.disk_of_used (ok.accounts.used_of_held stored)

/-- `bmapIndirect` with a free block where it needs one. -/
theorem bmapIndirect_provided {a : Nat} {j : Fin nindirect} (ok : Ok s)
    (indirect : s.holds (i, .addr (Fin.last ndirect)) = some a)
    (free : s.holds (i, .indirect j) = none →
      allowed .outOfBlocks ∨ s.freeBlocks.Nonempty) :
    wp allowed (bmapIndirect a j.val)
      (fun b t => Provided s t i (.indirect j) b) s := by
  cases before : s.holds (i, .indirect j) with
  | some b =>
      rw [wp, bmapIndirect_of_stored indirect before]
      exact Provided.of_stored ok before
  | none =>
      have empty : getWord (s.disk a) (4 * j.val) = 0 := by
        by_contra present
        rw [holds_indirect_eq_some indirect present] at before
        cases before
      unfold bmapIndirect
      simp only [wp_bind, wp_get, if_pos empty]
      refine wp_mono (balloc_fresh ok (free before)) fun b t fresh => ?_
      simp only [wp_modify, wp_pure]
      obtain ⟨okay, mapped, here⟩ := assign_indirect ok fresh indirect empty
      have used : s.Used a := ok.accounts.used_of_held indirect
      have sb := fresh.same.sb
      refine ⟨okay, mapped, here, fun place c file stored => ?_, .inr ⟨before, fresh.free,
        fresh.data.2, fun c inside => ?_⟩⟩
      · have other : c ≠ a := by
          rintro rfl
          exact file (Prod.mk.inj (ok.accounts.apart stored indirect)).2
        refine (Function.update_of_ne other ..).trans ?_
        exact fresh.disk_of_used (ok.accounts.used_of_held stored)
      · refine (bit_setBlock_of_data (sb ▸ ok.layout) (sb ▸ used.1.1) (sb ▸ inside)).trans ?_
        exact fresh.bits c inside

/-- The blocks that files had are still there with their bytes. -/
structure Kept (s t : FsState) (i : Nat) : Prop where
  ok : Ok t
  mapped : Mapped s t i
  files : ∀ place c, place.2 ≠ .addr (Fin.last ndirect) → s.holds place = some c →
    t.disk c = s.disk c

theorem Provided.kept (provided : Provided s t i spot b) : Kept s t i :=
  ⟨provided.ok, provided.mapped, provided.files⟩

theorem Kept.trans (first : Kept s t i) (second : Kept t u i) : Kept s u i where
  ok := second.ok
  mapped := first.mapped.trans second.mapped
  files place c file stored :=
    (second.files place c file (first.mapped.keeps place c stored)).trans
      (first.files place c file stored)

/-- `bmap` with room for the write. -/
theorem bmap_room (ok : Ok s) (valid : s.valid i = true)
    (room : allowed .outOfBlocks ∨ s.Room i off n) (some : 0 < n)
    (fits : off / bsize < maxfile) :
    wp allowed (bmap i (off / bsize))
      (fun b t => Kept s t i ∧ (allowed .outOfBlocks ∨ t.Room i off n) ∧
        ∃ spot, spotOf (off / bsize) = .some spot ∧ t.holds (i, spot) = .some b) s := by
  have touchesOf {spot : Spot} (index : spotOf (off / bsize) = .some spot) :
      Touches off n spot :=
    ⟨off, Nat.le_refl _, by omega, .inl index⟩
  unfold bmap
  split
  · rename_i direct
    have index := spotOf_direct direct
    refine wp_mono (bmapAddr_provided ok valid (free_of_room room (touchesOf index)))
      fun b t provided => ?_
    exact ⟨provided.kept, room.imp_right (provided.room (touchesOf index)), _, index,
      provided.here⟩
  · rename_i indirect
    have inside : off / bsize - ndirect < nindirect := by
      have : maxfile = ndirect + nindirect := rfl
      omega
    have index := spotOf_indirect indirect inside
    have touchesLast : Touches off n (.addr (Fin.last ndirect)) :=
      ⟨off, Nat.le_refl _, by omega, .inr ⟨Nat.le_of_not_lt indirect, rfl⟩⟩
    rw [if_pos inside]
    simp only [wp_bind]
    refine wp_mono (bmapAddr_provided ok valid (free_of_room room touchesLast))
      fun a t first => ?_
    have roomT := room.imp_right (first.room touchesLast)
    refine wp_mono (bmapIndirect_provided (j := ⟨_, inside⟩) first.ok first.here
      (free_of_room roomT (touchesOf index))) fun b u second => ?_
    exact ⟨first.kept.trans second.kept, roomT.imp_right (second.room (touchesOf index)), _,
      index, second.here⟩

/-- `bmap` with room for the write changes nothing where there is a block. -/
theorem bmap_room_stored (ok : Ok s) (valid : s.valid i = true)
    (room : allowed .outOfBlocks ∨ s.Room i off n) (some : 0 < n)
    (fits : off / bsize < maxfile) :
    wp allowed (bmap i (off / bsize))
      (fun b t => (Kept s t i ∧ (allowed .outOfBlocks ∨ t.Room i off n) ∧
        ∃ spot, spotOf (off / bsize) = .some spot ∧ t.holds (i, spot) = .some b) ∧
        ∀ spot c, spotOf (off / bsize) = .some spot → s.holds (i, spot) = .some c → t = s) s := by
  by_cases known : ∃ spot c, spotOf (off / bsize) = .some spot ∧ s.holds (i, spot) = .some c
  · obtain ⟨spot, c, index, stored⟩ := known
    rw [wp, bmap_of_stored valid index stored]
    exact ⟨⟨(Provided.of_stored ok stored).kept, room, spot, index, stored⟩, fun _ _ _ _ => rfl⟩
  · refine wp_mono (bmap_room ok valid room some fits) fun b t mapped => ⟨mapped, ?_⟩
    exact fun spot c index stored => absurd ⟨spot, c, index, stored⟩ known

end Room

end Xv6.Blocks
