import Mathlib.Data.List.Nodup
import Mathlib.Order.Fin.Basic
import Mathlib.Tactic.IntervalCases
import Xv6.BlockAccounting

/-!
# Block accounting across operations

Between two operations the in-memory inodes agree with the disk and no file has
a hole.  Each operation keeps that, so the blocks on the disk are accounted for
in every state of every run, `readi` never allocates and `bfree` never finds a
free block.
-/

namespace Xv6.Blocks

open ByteFields BlockOwners LabelledRuns StateTriples

/-- The invariant between two operations. -/
structure Settled (s : FsState) : Prop where
  ok : Ok s
  noHole : ∀ i, s.Allocated i → s.Covered i (s.view i).size.toNat
  synced : ∀ i, s.valid i = true → s.inode i = s.dinode i

section Operations

variable {s t u : FsState} {i l : Nat} {devsw : UInt16 → UInt32 → Int}

theorem Settled.view (settled : Settled s) (i : Nat) : s.view i = s.dinode i := by
  unfold FsState.view
  split
  · rename_i valid
    exact settled.synced i valid
  · rfl

theorem allocated_of_valid (ok : Ok s) (valid : s.valid i = true) : s.Allocated i := by
  obtain ⟨inode, type⟩ := ok.live i valid
  refine ⟨inode, ?_⟩
  rwa [view_of_valid valid]

theorem Settled.covered (settled : Settled s) (valid : s.valid i = true) :
    s.Covered i (s.inode i).size.toNat := by
  have covered := settled.noHole i (allocated_of_valid settled.ok valid)
  rwa [view_of_valid valid] at covered

/-- Files are covered in a state that stores the same blocks. -/
theorem covered_congr {off : Nat} (holds : ∀ place, t.holds place = s.holds place)
    (covered : s.Covered i off) : t.Covered i off := by
  intro bn inside
  obtain ⟨spot, b, index, stored⟩ := covered bn inside
  exact ⟨spot, b, index, (holds _).trans stored⟩

/-- A sum of two `uint`s that has not wrapped. -/
theorem toNat_add_of_le {off n : UInt32} (fits : ¬ off + n < off) :
    (off + n).toNat = off.toNat + n.toNat := by
  rw [UInt32.lt_iff_toNat_lt, UInt32.toNat_add] at fits
  rw [UInt32.toNat_add]
  have first := off.toNat_lt
  have second := n.toNat_lt
  omega

/-- `readi` leaves everything as it is and does not panic. -/
theorem readi_spec (devsw : UInt16 → UInt32 → Int) (settled : Settled s)
    (valid : s.valid i = true) (off n : UInt32) :
    wp (fun _ => False) (readi devsw i off n) (fun _ t => t = s) s := by
  unfold readi
  simp only [wp_bind, wp_get]
  split
  · rfl
  · split
    · rfl
    · rename_i inside
      have covered := settled.covered valid
      generalize (s.inode i).size = size at inside covered
      rw [not_or] at inside
      obtain ⟨within, fits⟩ := inside
      have sum := toNat_add_of_le fits
      rw [UInt32.lt_iff_toNat_lt] at within
      simp only [wp_bind]
      refine wp_mono (readBytes_spec valid (Covered.mono covered ?_)) fun _ _ same => same
      split
      · rename_i past
        rw [UInt32.lt_iff_toNat_lt, sum] at past
        rw [UInt32.toNat_sub_of_le _ _ (UInt32.le_iff_toNat_le.mpr (by omega))]
        omega
      · rename_i short
        rw [UInt32.lt_iff_toNat_lt, sum] at short
        omega

/-- After a change to one in-memory inode, `iupdate` settles the state. -/
theorem settled_iupdate (settled : Settled s) (ok : Ok t) (sb : t.sb = s.sb)
    (sameValid : t.valid = s.valid) (valid : s.valid i = true)
    (others : ∀ l, l ≠ i → t.inode l = s.inode l)
    (dinode : ∀ l, l < s.sb.ninodes → t.dinode l = s.dinode l)
    (here : t.Covered i (t.inode i).size.toNat)
    (elsewhere : ∀ l, l ≠ i → ∀ spot b, s.holds (l, spot) = some b →
      t.holds (l, spot) = some b) :
    Settled (t.setDinode i (t.inode i)) := by
  have validT : t.valid i = true := by rw [sameValid, valid]
  obtain ⟨okay, view, holds⟩ := iupdate_ok ok validT
  refine ⟨okay, fun l allocated => covered_congr holds ?_, fun l isValid => ?_⟩
  · rw [view l]
    by_cases mine : l = i
    · subst mine
      rw [view_of_valid validT]
      exact here
    · have inode : s.IsInode l := by
        have inside := allocated.1
        rw [FsState.IsInode] at inside ⊢
        rw [← sb]
        exact inside
      have same : t.view l = s.view l := by
        unfold FsState.view
        rw [sameValid, others l mine, dinode l inode.2]
      have before : s.Allocated l := by
        refine ⟨inode, ?_⟩
        rw [← same, ← view l]
        exact allocated.2
      rw [same]
      intro bn inside
      obtain ⟨spot, b, index, stored⟩ := settled.noHole l before bn inside
      exact ⟨spot, b, index, elsewhere l mine spot b stored⟩
  · by_cases mine : l = i
    · subst mine
      exact dinode_setDinode_self.symm
    · have before : s.valid l = true := by
        rw [← sameValid]
        exact isValid
      rw [dinode_setDinode_of_ne mine, dinode l (settled.ok.live l before).1.2,
        ← settled.synced l before]
      exact others l mine

/-- Fields of an in-memory inode other than the addresses do not matter for the
blocks it stores. -/
theorem setFields_ok {d : Dinode} (ok : Ok s) (valid : s.valid i = true)
    (type : d.type ≠ 0) (addrs : d.addrs = (s.inode i).addrs) :
    Ok (s.setInode i d) ∧ ∀ place, (s.setInode i d).holds place = s.holds place := by
  have here : (s.setInode i d).inode i = d := Function.update_self ..
  have others (l : Nat) (other : l ≠ i) : (s.setInode i d).inode l = s.inode l :=
    Function.update_of_ne other ..
  have entries (spot : Spot) : entry s.disk d spot = entry s.disk (s.inode i) spot := by
    cases spot with
    | addr k => rw [entry, entry, addrs]
    | indirect j => rw [entry, entry, addrs]
  refine ok.setInodes (t := s.setInode i d) rfl rfl (fun _ _ => rfl) (fun _ _ => rfl) ?_
    ok.refs fun l isValid => ?_
  · rintro ⟨l, spot⟩
    have view : (s.setInode i d).view l = if l = i then d else s.view l := by
      change (if s.valid l then (s.setInode i d).inode l else s.dinode l) = _
      split
      · rename_i isValid
        split
        · rename_i mine
          rw [mine, here]
        · rename_i other
          rw [others l other, view_of_valid isValid]
      · rename_i notValid
        have other : l ≠ i := by
          rintro rfl
          exact notValid valid
        rw [if_neg other, FsState.view, if_neg notValid]
    ext b
    rw [held_eq_some, holds_eq_some, view]
    split
    · rename_i mine
      subst mine
      rw [entries, FsState.Allocated, view_of_valid valid]
      have before := (ok.live l valid).2
      exact and_congr_left fun _ => and_congr_right fun _ =>
        ⟨fun _ => before, fun _ => type⟩
    · exact Iff.rfl
  · refine ⟨(ok.live l isValid).1, ?_⟩
    by_cases mine : l = i
    · rw [mine, here]
      exact type
    · rw [others l mine]
      exact (ok.live l isValid).2

/-- A state in which the inodes are the same and no block is forgotten. -/
theorem settled_of_mapped (settled : Settled s) (ok : Ok t) (mapped : Mapped s t i)
    (same : t.inode i = s.inode i) : Settled t := by
  have inode (l : Nat) : t.inode l = s.inode l := by
    by_cases mine : l = i
    · rw [mine, same]
    · exact mapped.others l mine
  have view {l : Nat} (inside : l < s.sb.ninodes) : t.view l = s.view l := by
    unfold FsState.view
    rw [mapped.valid, inode l, mapped.dinode l inside]
  refine ⟨ok, fun l allocated => ?_, fun l valid => ?_⟩
  · have inside : s.IsInode l := by
      have inside := allocated.1
      rwa [FsState.IsInode, mapped.sb] at inside
    have before : s.Allocated l := by
      refine ⟨inside, ?_⟩
      rw [← view inside.2]
      exact allocated.2
    rw [view inside.2]
    intro bn low
    obtain ⟨spot, b, index, stored⟩ := settled.noHole l before bn low
    exact ⟨spot, b, index, mapped.keeps _ _ stored⟩
  · rw [mapped.valid] at valid
    rw [inode l, settled.synced l valid, mapped.dinode l (settled.ok.live l valid).1.2]

/-- `writei` -/
theorem writei_spec (settled : Settled s) (valid : s.valid i = true)
    (src : Nat → UInt8) (off n : UInt32) :
    wp NotFreeing (writei devsw i src off n) (fun _ t => Settled t) s := by
  unfold writei
  simp only [wp_bind, wp_get]
  split
  · exact settled
  · split
    · exact settled
    · rename_i inside
      split
      · exact settled
      · rename_i small
        have covered := settled.covered valid
        rw [not_or] at inside
        obtain ⟨within, fits⟩ := inside
        have sum := toNat_add_of_le fits
        rw [UInt32.lt_iff_toNat_lt, not_lt] at within
        simp only [wp_bind]
        refine wp_mono (writeBytes_spec settled.ok valid (Covered.mono covered within)
          (Nat.le_refl _)) ?_
        rintro last t ⟨ok, mapped, upTo, reached, still⟩
        have validT : t.valid i = true := by rw [mapped.valid, valid]
        obtain ⟨addrs, fields⟩ := mapped.fields
        split
        · have size : (UInt32.ofNat last).toNat = last := by
            refine UInt32.toNat_ofNat_of_lt' ?_
            have : maxfile * bsize = 71680 := rfl
            have : UInt32.size = 4294967296 := rfl
            omega
          have type : (t.inode i).type ≠ 0 := (ok.live i validT).2
          generalize grown : t.setInode i { t.inode i with size := UInt32.ofNat last } = u
          obtain ⟨okU, holds⟩ := setFields_ok
            (d := { t.inode i with size := UInt32.ofNat last }) ok validT type rfl
          rw [grown] at okU holds
          have here : u.inode i = { t.inode i with size := UInt32.ofNat last } := by
            rw [← grown]
            exact Function.update_self ..
          simp only [wp_bind, wp_modify, iupdate, wp_pure, grown]
          refine settled_iupdate settled okU ?_ ?_ valid (fun l other => ?_)
            (fun l low => ?_) ?_ fun l other spot b stored => ?_
          · rw [← mapped.sb, ← grown]
            rfl
          · rw [← mapped.valid, ← grown]
            rfl
          · rw [← mapped.others l other, ← grown]
            exact Function.update_of_ne other ..
          · rw [← mapped.dinode l low, ← grown]
            rfl
          · rw [here]
            dsimp only
            rw [size]
            exact covered_congr holds upTo
          · rw [holds]
            exact mapped.keeps _ _ stored
        · rename_i short
          have all : s.Covered i (off.toNat + n.toNat) := by
            refine Covered.mono covered ?_
            by_cases empty : n.toNat = 0
            · omega
            · have some : 0 < n := by
                rw [UInt32.lt_iff_toNat_lt]
                exact Nat.pos_of_ne_zero empty
              have bound : ¬ (s.inode i).size.toNat < last := fun longer =>
                short ⟨some, longer⟩
              omega
          exact settled_of_mapped settled ok mapped (still all)

/-- `bfree` of a marked block. -/
theorem bfree_eq {b : Nat} (super : readsb s.disk = s.sb) (marked : s.bit b = true) :
    bfree b s = .ok ((), s.clear b) := by
  have same : { s with sb := readsb s.disk } = s := by rw [super]
  change (if ({ s with sb := readsb s.disk } : FsState).bit b then
    (set (({ s with sb := readsb s.disk } : FsState).clear b) : Fs Unit)
    else throw .freeingFreeBlock) { s with sb := readsb s.disk } = _
  rw [same, if_pos marked]
  rfl

/-- In the middle of `itrunc`: the blocks at some places of the inode are free,
some of its addresses are zero, and nothing else has changed. -/
structure Freeing (s t : FsState) (i : Nat) (freed : Spot → Prop)
    (zeroed : Fin (ndirect + 1) → Prop) : Prop where
  sb : t.sb = s.sb
  ref : t.ref = s.ref
  valid : t.valid = s.valid
  super : readsb t.disk = readsb s.disk
  dinode : ∀ l, l < s.sb.ninodes → t.dinode l = s.dinode l
  others : ∀ l, l ≠ i → t.inode l = s.inode l
  fields : ∃ addrs, t.inode i = { s.inode i with addrs := addrs }
  zeros : ∀ k, zeroed k → (t.inode i).addrs k = 0
  kept : ∀ k, ¬ zeroed k → (t.inode i).addrs k = (s.inode i).addrs k
  bits : ∀ c, c < s.sb.size → (t.bit c = true ↔
    s.bit c = true ∧ ∀ spot, freed spot → s.holds (i, spot) ≠ some c)
  disk : ∀ c, s.sb.nmeta ≤ c → t.disk c = s.disk c

section Freeing

variable {freed freed' : Spot → Prop} {zeroed : Fin (ndirect + 1) → Prop} {spot : Spot}
  {b : Nat}

theorem Freeing.start (s : FsState) (i : Nat) :
    Freeing s s i (fun _ => False) fun _ => False :=
  ⟨rfl, rfl, rfl, rfl, fun _ _ => rfl, fun _ _ => rfl, ⟨_, rfl⟩, nofun, fun _ _ => rfl,
    fun _ _ => by simp, fun _ _ => rfl⟩

/-- A place that stores nothing counts as freed. -/
theorem Freeing.skip (freeing : Freeing s t i freed zeroed)
    (empty : s.holds (i, spot) = none) :
    Freeing s t i (fun other => freed other ∨ other = spot) zeroed :=
  { freeing with
    bits := fun c bound => by
      rw [freeing.bits c bound]
      refine and_congr_right fun _ => ⟨fun away other gone => ?_, fun away other gone => ?_⟩
      · rcases gone with gone | rfl
        · exact away other gone
        · rw [empty]
          exact (Option.some_ne_none _).symm
      · exact away other (.inl gone) }

/-- `bfree` of the block at one more place. -/
theorem Freeing.bfree (ok : Ok s) (freeing : Freeing s t i freed zeroed)
    (stored : s.holds (i, spot) = some b) (still : ¬ freed spot) :
    wp NotFreeing (Blocks.bfree b)
      (fun _ u => Freeing s u i (fun other => freed other ∨ other = spot) zeroed) t := by
  have sb := freeing.sb
  have layout : t.sb.Layout := sb ▸ ok.layout
  have data := ok.isData stored
  have inside : b < t.sb.size := sb ▸ data.2
  have same := sameInodes_clear layout inside
  have super : readsb t.disk = t.sb := by rw [freeing.super, ok.super, sb]
  have marked : t.bit b = true := by
    refine (freeing.bits b data.2).mpr ⟨ok.bit stored, fun other gone held => still ?_⟩
    have equal := (Prod.mk.inj (ok.accounts.apart stored held)).2
    rwa [equal]
  rw [wp, bfree_eq super marked]
  refine ⟨same.sb.trans sb, same.ref.trans freeing.ref, same.valid.trans freeing.valid,
    same.super.trans freeing.super, fun l low => ?_, fun l other => ?_, ?_, ?_, ?_,
    fun c bound => ?_, fun c low => ?_⟩
  · rw [same.dinode l (sb ▸ low), freeing.dinode l low]
  · rw [same.inode, freeing.others l other]
  · rw [same.inode]
    exact freeing.fields
  · rw [same.inode]
    exact freeing.zeros
  · rw [same.inode]
    exact freeing.kept
  · rw [bit_clear, Bool.and_eq_true, freeing.bits c bound]
    constructor
    · rintro ⟨different, before, away⟩
      refine ⟨before, fun other gone held => ?_⟩
      rcases gone with gone | rfl
      · exact away other gone held
      · rw [stored] at held
        simp [Option.some.inj held] at different
    · rintro ⟨before, away⟩
      refine ⟨?_, before, fun other gone => away other (.inl gone)⟩
      have different : c ≠ b := by
        rintro rfl
        exact away spot (.inr rfl) stored
      simp [different]
  · rw [disk_clear layout inside (sb ▸ low), freeing.disk c low]

/-- `ip->addrs[k] = 0` -/
theorem Freeing.setAddr (freeing : Freeing s t i freed zeroed) (k : Fin (ndirect + 1)) :
    Freeing s (t.setInode i ((t.inode i).setAddr k 0)) i freed
      fun l => zeroed l ∨ l = k := by
  have here : (t.setInode i ((t.inode i).setAddr k 0)).inode i =
      (t.inode i).setAddr k 0 :=
    Function.update_self ..
  refine ⟨freeing.sb, freeing.ref, freeing.valid, freeing.super, freeing.dinode,
    fun l other => ?_, ?_, fun l gone => ?_, fun l stays => ?_, freeing.bits, freeing.disk⟩
  · rw [← freeing.others l other]
    exact Function.update_of_ne other ..
  · obtain ⟨addrs, fields⟩ := freeing.fields
    rw [here, fields]
    exact ⟨_, rfl⟩
  · rw [here]
    by_cases same : l = k
    · rw [same, setAddr_self]
    · rw [setAddr_of_ne _ _ same]
      exact freeing.zeros l (gone.resolve_right same)
  · rw [not_or] at stays
    rw [here, setAddr_of_ne _ _ stays.2]
    exact freeing.kept l stays.1

theorem Freeing.congr (freeing : Freeing s t i freed zeroed)
    {zeroed' : Fin (ndirect + 1) → Prop} (sameFreed : ∀ spot, freed spot ↔ freed' spot)
    (sameZeroed : ∀ k, zeroed k ↔ zeroed' k) : Freeing s t i freed' zeroed' := by
  have first : freed = freed' := funext fun spot => propext (sameFreed spot)
  have second : zeroed = zeroed' := funext fun k => propext (sameZeroed k)
  rwa [← first, ← second]

/-- The second loop of `itrunc` frees what the indirect block stores. -/
theorem freeIndirect_spec {a : Nat} {js : List Nat} (ok : Ok s)
    (indirect : s.holds (i, .addr (Fin.last ndirect)) = some a)
    (freeing : Freeing s t i freed zeroed) (apart : js.Nodup)
    (bound : ∀ j ∈ js, j < nindirect)
    (still : ∀ j : Fin nindirect, j.val ∈ js → ¬ freed (.indirect j)) :
    wp NotFreeing (freeIndirect a js)
      (fun _ u => Freeing s u i
        (fun spot => freed spot ∨ ∃ j : Fin nindirect, j.val ∈ js ∧ spot = .indirect j)
        zeroed) t := by
  induction js generalizing t freed with
  | nil => exact freeing.congr (by simp) fun _ => Iff.rfl
  | cons j js ih =>
      have low : j < nindirect := bound j (List.mem_cons_self ..)
      obtain ⟨absent, rest⟩ := List.nodup_cons.mp apart
      have sameBlock : t.disk a = s.disk a := freeing.disk a (ok.isData indirect).1
      have later (spot : Spot) :
          (freed spot ∨ spot = .indirect ⟨j, low⟩) ∨
              (∃ l : Fin nindirect, l.val ∈ js ∧ spot = .indirect l) ↔
            freed spot ∨
              ∃ l : Fin nindirect, l.val ∈ j :: js ∧ spot = .indirect l := by
        rw [or_assoc]
        refine or_congr_right ⟨?_, ?_⟩
        · rintro (rfl | ⟨l, inside, rfl⟩)
          · exact ⟨⟨j, low⟩, List.mem_cons_self .., rfl⟩
          · exact ⟨l, List.mem_cons_of_mem _ inside, rfl⟩
        · rintro ⟨l, inside, rfl⟩
          rcases List.mem_cons.mp inside with here | inside
          · exact .inl (congrArg Spot.indirect (Fin.ext here))
          · exact .inr ⟨l, inside, rfl⟩
      have next (u : FsState) (one : Freeing s u i
          (fun spot => freed spot ∨ spot = .indirect ⟨j, low⟩) zeroed) :
          wp NotFreeing (freeIndirect a js) (fun _ u => Freeing s u i
            (fun spot => freed spot ∨
              ∃ l : Fin nindirect, l.val ∈ j :: js ∧ spot = .indirect l) zeroed) u := by
        refine wp_mono (ih one rest (fun l inside => bound l (List.mem_cons_of_mem _ inside))
          fun l inside gone => ?_) fun _ v freeing => freeing.congr later fun _ => Iff.rfl
        rcases gone with gone | same
        · exact still l (List.mem_cons_of_mem _ inside) gone
        · cases same
          exact absent inside
      unfold freeIndirect
      simp only [wp_bind, wp_get, sameBlock]
      by_cases empty : getWord (s.disk a) (4 * j) = 0
      · simp only [empty, ne_eq, not_true, if_false]
        exact next t (freeing.skip (holds_indirect_eq_none (j := ⟨j, low⟩) indirect empty))
      · have stored := holds_indirect_eq_some (j := ⟨j, low⟩) indirect empty
        have one := freeing.bfree ok stored (still ⟨j, low⟩ (List.mem_cons_self ..))
        rw [if_pos empty, wp_bind]
        exact wp_mono one fun _ u one => next u one

/-- The first loop of `itrunc` frees the blocks of direct addresses and clears
these. -/
theorem freeAddrs_spec {ks : List (Fin (ndirect + 1))} (ok : Ok s)
    (valid : s.valid i = true) (freeing : Freeing s t i freed zeroed) (apart : ks.Nodup)
    (still : ∀ k ∈ ks, ¬ freed (.addr k) ∧ ¬ zeroed k) :
    wp NotFreeing (freeAddrs i ks)
      (fun _ u => Freeing s u i (fun spot => freed spot ∨ ∃ k ∈ ks, spot = .addr k)
        fun k => zeroed k ∨ k ∈ ks) t := by
  induction ks generalizing t freed zeroed with
  | nil => exact freeing.congr (by simp) (by simp)
  | cons k ks ih =>
      obtain ⟨absent, rest⟩ := List.nodup_cons.mp apart
      obtain ⟨notFreed, notZeroed⟩ := still k (List.mem_cons_self ..)
      have same : (t.inode i).addrs k = (s.inode i).addrs k := freeing.kept k notZeroed
      have next (u : FsState) (one : Freeing s u i
          (fun spot => freed spot ∨ spot = .addr k) fun l => zeroed l ∨ l = k) :
          wp NotFreeing (freeAddrs i ks) (fun _ u => Freeing s u i
            (fun spot => freed spot ∨ ∃ l ∈ k :: ks, spot = .addr l)
            fun l => zeroed l ∨ l ∈ k :: ks) u := by
        refine wp_mono (ih one rest fun l inside => ?_)
          fun _ v freeing => freeing.congr (fun spot => ?_) fun l => ?_
        · obtain ⟨first, second⟩ := still l (List.mem_cons_of_mem _ inside)
          have different : l ≠ k := by
            rintro rfl
            exact absent inside
          refine ⟨fun gone => gone.elim first fun equal => ?_,
            fun gone => gone.elim second different⟩
          exact different (Spot.addr.inj equal)
        · simp [or_assoc]
        · simp [or_assoc]
      unfold freeAddrs
      simp only [wp_bind, wp_get, same]
      by_cases empty : (s.inode i).addrs k = 0
      · simp only [empty, ne_eq, not_true, if_false]
        have nothing : s.holds (i, .addr k) = none := by
          rw [Option.eq_none_iff_forall_ne_some]
          intro c stored
          obtain ⟨-, value, nonzero⟩ := holds_eq_some.mp stored
          rw [view_of_valid valid, entry, empty] at value
          exact nonzero value.symm
        have skipped := freeing.skip nothing
        refine next t { skipped with zeros := fun l gone => ?_, kept := fun l stays => ?_ }
        · rcases gone with gone | rfl
          · exact freeing.zeros l gone
          · rw [same, empty]
        · exact freeing.kept l fun gone => stays (.inl gone)
      · have stored : s.holds (i, .addr k) = some ((s.inode i).addrs k).toNat := by
          refine holds_eq_some.mpr ⟨allocated_of_valid ok valid, ?_, toNat_ne_zero.mpr empty⟩
          rw [view_of_valid valid, entry]
        rw [if_pos empty]
        simp only [wp_bind, wp_modify]
        exact wp_mono (freeing.bfree ok stored notFreed) fun _ u one =>
          next _ (one.setAddr k)

/-- All blocks of the inode are free. -/
theorem Freeing.done (ok : Ok s) (valid : s.valid i = true)
    (freeing : Freeing s t i freed zeroed)
    (all : ∀ spot b, s.holds (i, spot) = some b → freed spot)
    (empty : ∀ k, (t.inode i).addrs k = 0) :
    Ok t ∧ (∀ spot, t.holds (i, spot) = none) ∧
      ∀ l, l ≠ i → ∀ spot, t.holds (l, spot) = s.holds (l, spot) := by
  have sb := freeing.sb
  have validT : t.valid i = true := by rw [freeing.valid, valid]
  obtain ⟨addrs, fields⟩ := freeing.fields
  have mine (spot : Spot) : t.holds (i, spot) = none := by
    rw [Option.eq_none_iff_forall_ne_some]
    intro c stored
    obtain ⟨-, value, nonzero⟩ := holds_eq_some.mp stored
    rw [view_of_valid validT] at value
    cases spot with
    | addr k =>
        rw [entry, empty k] at value
        exact nonzero value.symm
    | indirect j =>
        rw [entry, if_pos (empty _)] at value
        exact nonzero value.symm
  have others (l : Nat) (other : l ≠ i) (spot : Spot) :
      t.holds (l, spot) = s.holds (l, spot) := by
    have view {l : Nat} (other : l ≠ i) (inside : s.IsInode l) : t.view l = s.view l := by
      unfold FsState.view
      rw [freeing.valid, freeing.others l other, freeing.dinode l inside.2]
    refine holds_congr sb (fun inside => by rw [view other inside]) fun before => ?_
    rw [view other before.1]
    exact ok.entry_congr (fun c used => freeing.disk c used.1.1) before
  refine ⟨?_, mine, others⟩
  refine ⟨sb ▸ ok.layout, ?_, fun b low => ?_, ?_, fun l counted => ?_, fun l isValid => ?_⟩
  · rw [freeing.super, ok.super, sb]
  · rw [sb] at low
    have bound := low.trans_le (Superblock.Layout.nmeta_le s.sb)
    refine (freeing.bits b bound).mpr ⟨ok.reserved b low, fun spot _ stored => ?_⟩
    exact absurd (ok.isData stored).1 (Nat.not_le_of_lt low)
  · refine ok.accounts.release (fun place => place.1 = i) ?_ ?_ fun c => ?_
    · rintro ⟨l, spot⟩ rfl
      exact mine spot
    · rintro ⟨l, spot⟩ other
      exact others l other spot
    · unfold FsState.Used
      rw [sb, and_assoc]
      refine and_congr_right fun data => (freeing.bits c data.2).trans ?_
      refine and_congr_right fun _ => ⟨?_, fun away spot _ => away (i, spot) rfl⟩
      rintro away ⟨l, spot⟩ rfl stored
      exact away spot (all spot c stored) stored
  · rw [freeing.ref] at counted
    rw [FsState.IsInode, sb]
    exact ok.refs l counted
  · rw [freeing.valid] at isValid
    rw [FsState.IsInode, sb]
    refine ⟨(ok.live l isValid).1, ?_⟩
    by_cases same : l = i
    · rw [same, fields]
      exact (ok.live i valid).2
    · rw [freeing.others l same]
      exact (ok.live l isValid).2

end Freeing

/-- What `itrunc` leaves: the inode is empty, and the rest is settled. -/
structure Truncated (s t : FsState) (i : Nat) : Prop where
  settled : Settled t
  sb : t.sb = s.sb
  ref : t.ref = s.ref
  valid : t.valid = s.valid
  empty : ∀ spot, t.holds (i, spot) = none

/-- The end of `itrunc`. -/
theorem truncated_of_freeing {freed : Spot → Prop} {zeroed : Fin (ndirect + 1) → Prop}
    (settled : Settled s) (valid : s.valid i = true)
    (freeing : Freeing s t i freed zeroed)
    (all : ∀ spot b, s.holds (i, spot) = some b → freed spot)
    (empty : ∀ k, (t.inode i).addrs k = 0) :
    wp NotFreeing (do
        modify fun s => s.setInode i { s.inode i with size := 0 }
        iupdate i) (fun _ u => Truncated s u i) t := by
  obtain ⟨ok, mine, others⟩ := freeing.done settled.ok valid all empty
  have validT : t.valid i = true := by rw [freeing.valid, valid]
  obtain ⟨okU, holds⟩ := setFields_ok (d := { t.inode i with size := 0 }) ok validT
    (ok.live i validT).2 rfl
  simp only [wp_bind, wp_modify, iupdate]
  generalize shrunk : t.setInode i { t.inode i with size := 0 } = u at okU holds
  have here : u.inode i = { t.inode i with size := 0 } := by
    rw [← shrunk]
    exact Function.update_self ..
  have sb : u.sb = s.sb := by rw [← freeing.sb, ← shrunk]; rfl
  have sameValid : u.valid = s.valid := by rw [← freeing.valid, ← shrunk]; rfl
  have validU : u.valid i = true := by rw [sameValid, valid]
  obtain ⟨-, -, updated⟩ := iupdate_ok okU validU
  refine ⟨?_, sb, ?_, sameValid, fun spot => ?_⟩
  · refine settled_iupdate settled okU sb sameValid valid (fun l other => ?_)
      (fun l low => ?_) ?_ fun l other spot b stored => ?_
    · rw [← freeing.others l other, ← shrunk]
      exact Function.update_of_ne other ..
    · rw [← freeing.dinode l low, ← shrunk]
      rfl
    · rw [here]
      intro bn inside
      exact absurd inside (Nat.not_lt_zero _)
    · rw [holds, others l other, stored]
  · rw [← freeing.ref, ← shrunk]
    rfl
  · rw [updated, holds, mine]

/-- `itrunc` -/
theorem itrunc_spec (settled : Settled s) (valid : s.valid i = true) :
    wp NotFreeing (itrunc i) (fun _ t => Truncated s t i) s := by
  have ok := settled.ok
  have apart : ((List.finRange ndirect).map Fin.castSucc).Nodup :=
    List.Nodup.map (Fin.castSucc_injective ndirect) (List.nodup_finRange ndirect)
  have direct {k : Fin (ndirect + 1)} (other : k ≠ Fin.last ndirect) :
      k ∈ (List.finRange ndirect).map Fin.castSucc := by
    refine List.mem_map.mpr ⟨k.castPred other, List.mem_finRange _, Fin.castSucc_castPred k other⟩
  have notLast : Fin.last ndirect ∉ (List.finRange ndirect).map Fin.castSucc := by
    intro inside
    obtain ⟨k, -, same⟩ := List.mem_map.mp inside
    exact (Fin.castSucc_lt_last k).ne same
  unfold itrunc
  simp only [wp_bind]
  refine wp_mono (freeAddrs_spec ok valid (Freeing.start s i) apart
    fun _ _ => ⟨id, id⟩) fun _ t first => ?_
  have sameLast : (t.inode i).addrs (Fin.last ndirect) =
      (s.inode i).addrs (Fin.last ndirect) :=
    first.kept _ fun gone => gone.elim id notLast
  simp only [wp_get, sameLast]
  by_cases absent : (s.inode i).addrs (Fin.last ndirect) = 0
  · simp only [absent, ne_eq, not_true, if_false]
    refine truncated_of_freeing settled valid first (fun spot b stored => ?_) fun k => ?_
    · cases spot with
      | addr k =>
          refine .inr ⟨k, direct ?_, rfl⟩
          rintro rfl
          obtain ⟨-, value, nonzero⟩ := holds_eq_some.mp stored
          rw [view_of_valid valid, entry, absent] at value
          exact nonzero value.symm
      | indirect j =>
          have present := indirect_present stored
          rw [view_of_valid valid] at present
          exact absurd absent present
    · by_cases last : k = Fin.last ndirect
      · rw [last, sameLast, absent]
      · exact first.zeros k (.inr (direct last))
  · have allocated := allocated_of_valid ok valid
    have present : (s.view i).addrs (Fin.last ndirect) ≠ 0 := by
      rw [view_of_valid valid]
      exact absent
    have indirect := holds_indirect allocated present
    rw [view_of_valid valid] at indirect
    rw [if_pos absent]
    simp only [wp_bind, wp_modify]
    refine wp_mono (freeIndirect_spec ok indirect first List.nodup_range
      (fun j inside => List.mem_range.mp inside) fun j _ gone => ?_) fun _ u second => ?_
    · rcases gone with gone | ⟨k, -, same⟩
      · exact gone
      · cases same
    · refine wp_mono (second.bfree ok indirect fun gone => ?_) fun _ v third => ?_
      · rcases gone with (gone | ⟨k, inside, same⟩) | ⟨j, -, same⟩
        · exact gone
        · cases same
          exact notLast inside
        · cases same
      · have fourth := third.setAddr (Fin.last ndirect)
        have finish := truncated_of_freeing settled valid fourth
          (fun spot b stored => ?_) fun k => ?_
        · simpa only [wp_bind, wp_modify] using finish
        · cases spot with
          | addr k =>
              by_cases last : k = Fin.last ndirect
              · exact .inr (congrArg Spot.addr last)
              · exact .inl (.inl (.inr ⟨k, direct last, rfl⟩))
          | indirect j => exact .inl (.inr ⟨j, List.mem_range.mpr j.isLt, rfl⟩)
        · refine fourth.zeros k ?_
          by_cases last : k = Fin.last ndirect
          · exact .inr last
          · exact .inl (.inr (direct last))

/-- A change to the inode cache after which the kernel knows the same inodes. -/
theorem settled_of_view (settled : Settled s) (sb : t.sb = s.sb) (disk : t.disk = s.disk)
    (view : ∀ l, t.view l = s.view l) (refs : ∀ l, 0 < t.ref l → s.IsInode l)
    (live : ∀ l, t.valid l = true →
      s.IsInode l ∧ (t.inode l).type ≠ 0 ∧ t.inode l = t.dinode l) : Settled t := by
  have sameView : t.view = s.view := funext view
  have bits (c : Nat) : t.bit c = s.bit c := by
    rw [FsState.bit, FsState.bit, disk, sb]
  obtain ⟨ok, holds⟩ := settled.ok.setInodes (t := t) sb (by rw [disk])
    (fun c _ => bits c) (fun c _ => by rw [disk]) (fun place => by rw [sameView]; rfl) refs
    fun l valid => ⟨(live l valid).1, (live l valid).2.1⟩
  refine ⟨ok, fun l allocated => covered_congr holds ?_, fun l valid => (live l valid).2.2⟩
  rw [view l]
  refine settled.noHole l ⟨?_, ?_⟩
  · have inside := allocated.1
    rwa [FsState.IsInode, sb] at inside
  · rw [← view l]
    exact allocated.2

theorem settled_setRef {count : Nat} (settled : Settled s)
    (inode : 0 < count → s.IsInode i) : Settled (s.setRef i count) := by
  refine settled_of_view settled rfl rfl (fun _ => rfl) (fun l counted => ?_)
    fun l valid => ?_
  · by_cases same : l = i
    · subst same
      refine inode ?_
      have here : (s.setRef l count).ref l = count := Function.update_self ..
      rwa [here] at counted
    · have other : (s.setRef i count).ref l = s.ref l := Function.update_of_ne same ..
      rw [other] at counted
      exact settled.ok.refs l counted
  · exact ⟨(settled.ok.live l valid).1, (settled.ok.live l valid).2, settled.synced l valid⟩

theorem settled_setValid_false (settled : Settled s) : Settled (s.setValid i false) := by
  have kept {l : Nat} (valid : (s.setValid i false).valid l = true) :
      s.valid l = true := by
    by_cases same : l = i
    · subst same
      have here : (s.setValid l false).valid l = false := Function.update_self ..
      rw [here] at valid
      cases valid
    · have other : (s.setValid i false).valid l = s.valid l :=
        Function.update_of_ne same ..
      rwa [← other]
  refine settled_of_view settled rfl rfl (fun l => ?_) settled.ok.refs fun l valid => ?_
  · rw [settled.view l]
    unfold FsState.view
    split
    · rename_i valid
      exact settled.synced l (kept valid)
    · rfl
  · have before := kept valid
    exact ⟨(settled.ok.live l before).1, (settled.ok.live l before).2,
      settled.synced l before⟩

/-- `iget` -/
theorem settled_iget (settled : Settled s) (inode : s.IsInode i) :
    wp NotFreeing (iget i) (fun _ t => Settled t) s := by
  unfold iget
  rw [wp_modify]
  dsimp only
  split
  · exact settled_setRef (settled_setValid_false settled) fun _ => inode
  · exact settled_setRef settled fun _ => inode

/-- `ilock` -/
theorem ilock_spec (settled : Settled s) (referenced : 0 < s.ref i) :
    wp NotFreeing (ilock i) (fun _ t => Settled t) s := by
  have inode := settled.ok.refs i referenced
  unfold ilock
  simp only [wp_bind, wp_get]
  rw [if_neg (Nat.not_lt.mpr referenced)]
  split
  · rename_i unread
    simp only [wp_bind, wp_set]
    split
    · exact show FsPanic.noType ≠ .freeingFreeBlock by rintro ⟨⟩
    · rename_i type
      rw [wp_pure]
      generalize loaded : (s.setInode i (s.dinode i)).setValid i true = t
      have sb : t.sb = s.sb := by rw [← loaded]; rfl
      have disk : t.disk = s.disk := by rw [← loaded]; rfl
      have dinode (l : Nat) : t.dinode l = s.dinode l := by
        rw [FsState.dinode, FsState.dinode, disk, sb]
      have here : t.inode i = s.dinode i := by
        rw [← loaded]
        exact Function.update_self ..
      have others (l : Nat) (other : l ≠ i) :
          t.inode l = s.inode l ∧ t.valid l = s.valid l := by
        rw [← loaded]
        exact ⟨Function.update_of_ne other .., Function.update_of_ne other ..⟩
      have validHere : t.valid i = true := by
        rw [← loaded]
        exact Function.update_self ..
      refine settled_of_view settled sb disk (fun l => ?_) ?_ fun l valid => ?_
      · by_cases same : l = i
        · rw [same, view_of_valid validHere, here, FsState.view, unread]
          rfl
        · obtain ⟨inodes, valids⟩ := others l same
          rw [FsState.view, inodes, valids, dinode l]
          rfl
      · rw [← loaded]
        exact settled.ok.refs
      · by_cases same : l = i
        · rw [same, here, dinode]
          exact ⟨inode, type, rfl⟩
        · obtain ⟨inodes, valids⟩ := others l same
          rw [valids] at valid
          rw [inodes, dinode l]
          exact ⟨(settled.ok.live l valid).1, (settled.ok.live l valid).2,
            settled.synced l valid⟩
  · exact settled

/-- A change to a dinode that is not in memory and stores no block before and
after. -/
theorem settled_setDinode {d : Dinode} (settled : Settled s) (inode : s.IsInode i)
    (unread : s.valid i = false) (before : ∀ spot, s.holds (i, spot) = none)
    (after : d.type = 0 ∨ d.size = 0 ∧ ∀ k, d.addrs k = 0) :
    Settled (s.setDinode i d) := by
  obtain ⟨super, bits, disk⟩ := setDinode_frame (d := d) settled.ok.layout inode.2
  have viewHere : (s.setDinode i d).view i = d := by
    change (if s.valid i then s.inode i else (s.setDinode i d).dinode i) = d
    rw [unread, dinode_setDinode_self]
    rfl
  have viewOther (l : Nat) (other : l ≠ i) : (s.setDinode i d).view l = s.view l := by
    change (if s.valid l then s.inode l else (s.setDinode i d).dinode l) = _
    rw [dinode_setDinode_of_ne other]
    rfl
  have notMine {l : Nat} (valid : s.valid l = true) : l ≠ i := by
    rintro rfl
    rw [unread] at valid
    cases valid
  obtain ⟨ok, holds⟩ := settled.ok.setInodes (t := s.setDinode i d) rfl super bits disk
    (by
      rintro ⟨l, spot⟩
      ext b
      by_cases same : l = i
      · subst same
        rw [held_eq_some, viewHere, before]
        refine ⟨?_, fun same => absurd same (Option.some_ne_none _).symm⟩
        rintro ⟨⟨-, type⟩, value, nonzero⟩
        rcases after with free | ⟨-, empty⟩
        · exact absurd free type
        · cases spot with
          | addr k =>
              rw [entry, empty k] at value
              exact absurd value.symm nonzero
          | indirect j =>
              rw [entry, if_pos (empty _)] at value
              exact absurd value.symm nonzero
      · rw [held_eq_some, viewOther l same]
        exact held_eq_some.symm)
    settled.ok.refs settled.ok.live
  refine ⟨ok, fun l allocated => ?_, fun l valid => ?_⟩
  · by_cases same : l = i
    · subst same
      have type := allocated.2
      rw [viewHere] at type ⊢
      rcases after with free | ⟨size, -⟩
      · exact absurd free type
      · rw [size]
        intro bn inside
        exact absurd inside (Nat.not_lt_zero _)
    · rw [viewOther l same]
      refine covered_congr holds (settled.noHole l ⟨allocated.1, ?_⟩)
      rw [← viewOther l same]
      exact allocated.2
  · rw [dinode_setDinode_of_ne (notMine valid)]
    exact settled.synced l valid

/-- A free inode is not in memory. -/
theorem unread_of_free (settled : Settled s) (free : (s.dinode i).type = 0) :
    s.valid i = false := by
  by_contra valid
  rw [Bool.not_eq_false] at valid
  refine (settled.ok.live i valid).2 ?_
  rw [settled.synced i valid, free]

/-- `ialloc` -/
theorem ialloc_spec (settled : Settled s) (type : UInt16) :
    wp NotFreeing (ialloc type) (fun _ t => Settled t) s := by
  unfold ialloc
  simp only [wp_bind, wp_get]
  cases found : (List.range' 1 (s.sb.ninodes - 1)).find? fun i => (s.dinode i).type == 0 with
  | none => exact show FsPanic.noInodes ≠ .freeingFreeBlock by rintro ⟨⟩
  | some i =>
      have free : (s.dinode i).type = 0 := by simpa using List.find?_some found
      have inode : s.IsInode i := by
        have inside := List.mem_range'_1.mp (List.mem_of_find?_eq_some found)
        unfold FsState.IsInode
        omega
      have unread := unread_of_free settled free
      simp only [wp_bind, wp_set, wp_pure]
      refine settled_iget ?_ inode
      refine settled_setDinode settled inode unread (fun spot => ?_)
        (.inr ⟨rfl, fun _ => rfl⟩)
      rw [Option.eq_none_iff_forall_ne_some]
      intro b stored
      have allocated := (holds_eq_some.mp stored).1.2
      rw [settled.view i] at allocated
      exact allocated free

/-- The part of `iput` that frees the inode. -/
theorem ifree_spec (settled : Settled s) (valid : s.valid i = true) :
    wp NotFreeing (ifree i) (fun _ t => Settled t ∧ t.sb = s.sb ∧ t.ref = s.ref) s := by
  have inode := (settled.ok.live i valid).1
  unfold ifree
  simp only [wp_bind]
  refine wp_mono (itrunc_spec settled valid) fun _ t truncated => ?_
  simp only [wp_modify, iupdate]
  have inodeT : t.IsInode i := by
    rw [FsState.IsInode, truncated.sb]
    exact inode
  have cleared := settled_setValid_false (i := i) truncated.settled
  have sameView (l : Nat) : (t.setValid i false).view l = t.view l := by
    rw [cleared.view l, truncated.settled.view l]
    rfl
  have nothing (spot : Spot) : (t.setValid i false).holds (i, spot) = none := by
    have view : (t.setValid i false).view = t.view := funext sameView
    rw [← truncated.empty spot, FsState.holds, FsState.holds, view]
    rfl
  have freed := settled_setDinode (d := { t.inode i with type := 0 }) cleared inodeT
    (Function.update_self ..) nothing (.inl rfl)
  have here : (t.setInode i { t.inode i with type := 0 }).inode i =
      { t.inode i with type := 0 } :=
    Function.update_self ..
  rw [here]
  refine ⟨?_, truncated.sb, truncated.ref⟩
  refine settled_of_view freed rfl rfl (fun l => ?_) freed.ok.refs fun l isValid => ?_
  · by_cases same : l = i
    · subst same
      change (if (Function.update t.valid l false) l then _ else _) =
        (if (Function.update t.valid l false) l then _ else _)
      rw [Function.update_self]
      rfl
    · have kept : (t.setInode i { t.inode i with type := 0 }).inode l = t.inode l :=
        Function.update_of_ne same ..
      change (if (Function.update t.valid i false) l then
          (t.setInode i { t.inode i with type := 0 }).inode l else _) = _
      rw [kept]
      rfl
  · have other : l ≠ i := by
      rintro rfl
      have here : Function.update t.valid l false l = false := Function.update_self ..
      have isValid : Function.update t.valid l false l = true := isValid
      rw [here] at isValid
      cases isValid
    have kept : (t.setInode i { t.inode i with type := 0 }).inode l = t.inode l :=
      Function.update_of_ne other ..
    refine ⟨(freed.ok.live l isValid).1, ?_, ?_⟩
    · change ((t.setInode i { t.inode i with type := 0 }).inode l).type ≠ 0
      rw [kept]
      exact (freed.ok.live l isValid).2
    · change (t.setInode i { t.inode i with type := 0 }).inode l = _
      rw [kept]
      exact freed.synced l isValid

/-- `iput` -/
theorem iput_spec (settled : Settled s) (referenced : 0 < s.ref i) :
    wp NotFreeing (iput i) (fun _ t => Settled t) s := by
  have inode := settled.ok.refs i referenced
  unfold iput
  simp only [wp_bind, wp_get]
  split
  · rename_i last
    rw [wp_bind]
    refine wp_mono (ifree_spec settled last.1) fun _ t freed => ?_
    obtain ⟨settledT, sb, ref⟩ := freed
    rw [wp_modify]
    refine settled_setRef settledT fun _ => ?_
    rw [FsState.IsInode, sb]
    exact inode
  · rw [wp_modify]
    exact settled_setRef settled fun _ => inode

/-- Every operation leaves a settled state and frees no free block. -/
theorem perform_spec (devsw : UInt16 → UInt32 → Int) {label : Label} (settled : Settled s)
    (enabled : s.Enabled label) :
    wp NotFreeing (perform devsw label) (fun _ t => Settled t) s := by
  cases label with
  | iget i => exact settled_iget settled enabled
  | ilock i => exact ilock_spec settled enabled
  | readi i off n =>
      have read := readi_spec devsw settled enabled.2 off n
      simp only [perform, wp_bind, wp_pure]
      rw [wp] at read ⊢
      split at read
      · rw [read]
        exact settled
      · exact read.elim
  | writei i src off n =>
      simp only [perform, wp_bind, wp_pure]
      exact writei_spec settled enabled.2 src off n
  | iupdate i major minor nlink =>
      have valid := enabled.2
      have ok := settled.ok
      obtain ⟨okT, holds⟩ := setFields_ok
        (d := { s.inode i with major := major, minor := minor, nlink := nlink }) ok valid
        (ok.live i valid).2 rfl
      simp only [perform, wp_bind, wp_modify, iupdate]
      refine settled_iupdate settled okT rfl rfl valid
        (fun l other => Function.update_of_ne other ..) (fun _ _ => rfl) ?_
        fun l _ spot b stored => (holds _).trans stored
      have here : (s.setInode i { s.inode i with
          major := major, minor := minor, nlink := nlink }).inode i =
          { s.inode i with major := major, minor := minor, nlink := nlink } :=
        Function.update_self ..
      rw [here]
      exact covered_congr holds (settled.covered valid)
  | ialloc type =>
      simp only [perform, wp_bind, wp_pure]
      exact ialloc_spec settled type
  | iput i => exact iput_spec settled enabled

end Operations

section Runs

variable {s t : FsState} {devsw : UInt16 → UInt32 → Int}

/-- Between two operations the kernel stores what the disk stores. -/
theorem Settled.stored (settled : Settled s) : s.stored = s.holds := by
  have view : s.view = s.dinode := funext settled.view
  rw [FsState.stored, FsState.holds, view]

theorem accounting_of_settled (settled : Settled s) : Accounting s := by
  have ok := settled.ok
  refine ⟨fun place b stored => ?_, fun first second b one two => ?_,
    fun b data marked => ?_, fun i inode type bn inside => ?_⟩
  · rw [settled.stored] at stored
    exact ⟨ok.isData stored, ok.bit stored⟩
  · rw [settled.stored] at one two
    exact ok.accounts.apart one two
  · rw [settled.stored]
    exact ok.accounts.existsUnique ⟨data, marked⟩
  · have allocated : s.Allocated i := ⟨inode, by rw [settled.view i]; exact type⟩
    have covered := settled.noHole i allocated
    rw [settled.view i] at covered
    obtain ⟨spot, b, index, stored⟩ := covered bn inside
    obtain ⟨-, value, nonzero⟩ := holds_eq_some.mp stored
    rw [settled.view i] at value
    exact ⟨spot, index, fun zero => nonzero (value.symm.trans zero)⟩

theorem settled_of_start (start : Start s) : Settled s := by
  obtain ⟨super, layout, reserved, accounting, ref, valid⟩ := start
  have view (i : Nat) : s.view i = s.dinode i := by
    rw [FsState.view, valid i]
    rfl
  have sameView : s.view = s.dinode := funext view
  have same : s.holds = s.stored := by rw [FsState.stored, FsState.holds, sameView]
  have invalid {i : Nat} (isValid : s.valid i = true) : False := by
    rw [valid i] at isValid
    cases isValid
  refine ⟨⟨layout, super, reserved, ⟨?_, fun b => ?_⟩, fun i counted => ?_, ?_⟩,
    fun i allocated bn inside => ?_, fun i isValid => (invalid isValid).elim⟩
  · rw [same]
    exact fun one two => accounting.apart _ _ _ one two
  · rw [same]
    refine ⟨fun used => (accounting.counted b used.1 used.2).exists, ?_⟩
    rintro ⟨place, stored⟩
    exact accounting.marked place b stored
  · rw [ref i] at counted
    cases counted
  · exact fun i isValid => (invalid isValid).elim
  · have type := allocated.2
    rw [view i] at type inside
    obtain ⟨spot, index, nonzero⟩ := accounting.noHole i allocated.1 type bn inside
    refine ⟨spot, entry s.disk (s.view i) spot, index, holds_eq_some.mpr ⟨allocated, rfl, ?_⟩⟩
    rw [view i]
    exact nonzero

theorem settled_of_step {label : Label} (settled : Settled s)
    (stepped : step devsw s label = some t) : Settled t := by
  unfold step at stepped
  split at stepped
  · rename_i enabled
    have spec := perform_spec devsw settled enabled
    split at stepped
    · rename_i ended
      cases stepped
      exact post_of_wp spec ended
    · cases stepped
  · cases stepped

/-- The blocks on the disk are accounted for, `readi` leaves everything as it
is, and no operation frees a free block. -/
structure Sound (devsw : UInt16 → UInt32 → Int) (s : FsState) : Prop where
  accounting : Accounting s
  readi : ∀ i off n, s.valid i = true →
    ∃ result, readi devsw i off n s = .ok (result, s)
  bfree : ∀ label, s.Enabled label →
    perform devsw label s ≠ .error .freeingFreeBlock

/-- The blocks are accounted for in every state of every run. -/
theorem sound_of_run {labels : List Label} (start : Start s)
    (ran : run (step devsw) s labels = some t) : Sound devsw t := by
  have settled : Settled t :=
    invariant_of_run settled_of_step (settled_of_start start) ran
  refine ⟨accounting_of_settled settled, fun i off n valid => ?_,
    fun label enabled failed => ?_⟩
  · have read := readi_spec devsw settled valid off n
    rw [wp] at read
    split at read
    · rename_i result last ended
      exact ⟨result, by rw [ended, read]⟩
    · exact read.elim
  · exact allowed_of_wp (perform_spec devsw settled enabled) failed rfl

end Runs

/-- The superblock of a disk of 20 blocks with one log block and eight inodes. -/
def smallSuperblock : Superblock where
  size := 20
  nblocks := 14
  ninodes := 8
  nlog := 1
  logstart := 2
  inodestart := 3
  bmapstart := 5

/-- A disk without files. -/
def emptyDisk : Disk :=
  Function.update (Function.update (fun _ _ => 0) 1
    (setWord (setWord (setWord (setWord (setWord (setWord (setWord (fun _ => 0)
      0 20) 4 14) 8 8) 12 1) 16 2) 20 3) 24 5)) 5 (setByte (fun _ => 0) 0 63)

/-- The file system on that disk. -/
def emptyFs : FsState where
  sb := smallSuperblock
  disk := emptyDisk
  ref := fun _ => 0
  valid := fun _ => false
  inode := fun _ => Dinode.zero

theorem free_emptyFs {i : Nat} (inode : emptyFs.IsInode i) :
    (emptyFs.dinode i).type = 0 := by
  obtain ⟨-, inside⟩ := inode
  have bound : i < 8 := inside
  interval_cases i <;> decide +kernel

theorem start_emptyFs : Start emptyFs := by
  have nothing (place : Nat × Spot) (b : Nat) : emptyFs.stored place ≠ some b := by
    obtain ⟨i, spot⟩ := place
    intro stored
    obtain ⟨⟨inode, type⟩, -⟩ := held_eq_some.mp stored
    exact type (free_emptyFs inode)
  refine ⟨by decide +kernel, ⟨by decide, by decide, by decide, by decide⟩, ?_,
    ⟨fun place b stored => absurd stored (nothing place b),
      fun first second b one => absurd one (nothing first b), fun b data marked => ?_,
      fun i inode type => absurd (free_emptyFs inode) type⟩, fun _ => rfl, fun _ => rfl⟩
  · decide +kernel
  · obtain ⟨low, high⟩ := data
    have lower : 6 ≤ b := low
    have upper : b < 20 := high
    have clear : emptyFs.bit b = false := by
      interval_cases b <;> decide +kernel
    rw [clear] at marked
    cases marked

/-- A file of 13 blocks is made, and removed again. -/
def makeAndRemove : List Label :=
  [.ialloc tFile, .ilock 1, .iupdate 1 0 0 1, .writei 1 (fun _ => 7) 0 6656,
    .readi 1 6000 100, .iupdate 1 0 0 0, .iput 1]

theorem makeAndRemove_sound :
    ∃ full last, run (step fun _ _ => -1) emptyFs (makeAndRemove.take 5) = some full ∧
      (List.range 20).all full.bit = true ∧
      run (step fun _ _ => -1) emptyFs makeAndRemove = some last ∧
      (List.range 20).countP last.bit = 6 ∧ Sound (fun _ _ => -1) last := by
  have half : ((run (step fun _ _ => -1) emptyFs (makeAndRemove.take 5)).map fun s =>
      (List.range 20).all s.bit) = some true := by
    decide +kernel
  have whole : ((run (step fun _ _ => -1) emptyFs makeAndRemove).map fun s =>
      (List.range 20).countP s.bit) = some 6 := by
    decide +kernel
  obtain ⟨full, ran, used⟩ := Option.map_eq_some_iff.mp half
  obtain ⟨last, ended, left⟩ := Option.map_eq_some_iff.mp whole
  exact ⟨full, last, ran, used, ended, left, sound_of_run start_emptyFs ended⟩

end Xv6.Blocks
