import Mathlib.Algebra.BigOperators.Group.Finset.Piecewise
import Xv6.PageRanges
import Xv6.SpaceRelease

/-!
# The kernel part of an address space

`setupkvm` maps the ranges of `kmap` into a new directory.  The ranges share no
page, so no page is mapped twice, and it succeeds exactly when the free list has
a frame for the directory and for every table of the ranges.

`mappages` rounds the first virtual address of a range down to its page but not
the physical one.  The frame buffer ends at `DEVSPACE`, and so begins inside a page
unless its size is a multiple of the page size.
-/

namespace Xv6.Vm

open StateTriples

namespace Kmap

/-- `phys_end - phys_start` -/
def size (k : Kmap) : Nat := (k.physEnd + 4294967296 - k.physStart) % 4294967296

/-- The first page of the range. -/
def first (k : Kmap) : Nat := k.virt / 4096

/-- The number of its pages. -/
def count (k : Kmap) : Nat := (k.virt + k.size - 1) / 4096 + 1 - k.virt / 4096

/-- The page belongs to the range. -/
def Covers (k : Kmap) (u : Nat) : Prop := k.first ≤ u ∧ u < k.first + k.count

/-- The entry of a page of the range. -/
def entryOf (k : Kmap) (u : Nat) : Nat := rangeEntry k.first k.physStart k.perm u

/-- The range is not empty and lies above `KERNBASE`. -/
structure Valid (k : Kmap) : Prop where
  kernel : kernbase ≤ k.virt
  nonempty : 0 < k.size
  top : k.virt + k.size ≤ 4294967296
  perm : k.perm < 4096
  phys : k.physStart < 4294967296

theorem Valid.count_pos {k : Kmap} (valid : k.Valid) : 0 < k.count := by
  have nonempty := valid.nonempty
  unfold count
  omega

theorem Valid.user_le {k : Kmap} (valid : k.Valid) : userPages ≤ k.first := by
  have size := userPages_eq
  have kernel : 2147483648 ≤ k.virt := valid.kernel
  unfold first
  omega

theorem Valid.last {k : Kmap} (valid : k.Valid) : k.first + k.count ≤ 1048576 := by
  have top := valid.top
  have nonempty := valid.nonempty
  unfold first count
  omega

end Kmap

/-- `mappages` for a range of `kmap`. -/
theorem mappages_kmap {boot : Boot} {s : Kernel} {d : Frame} {extra : Multiset Frame}
    {k : Kmap} (wf : Wf boot s d extra) (valid : k.Valid)
    (vacant : ∀ u, k.Covers u → ¬ PteP (pte s.mem d u)) :
    (∃ s', mappages d k.virt k.size k.physStart k.perm s = .ok (0, s') ∧
        RangeMapped s s' d k.first k.count k.physStart k.perm) ∨
      ∃ s', mappages d k.virt k.size k.physStart k.perm s = .ok (-1, s') ∧
        OutOfTables s s' d (InRange k.first k.count) := by
  have top := valid.top
  have nonempty := valid.nonempty
  have last := valid.last
  obtain ⟨n, countEq⟩ : ∃ n, k.count = n + 1 := ⟨k.count - 1, by
    have := valid.count_pos
    omega⟩
  have start : pgrounddown k.virt = k.first * 4096 := rfl
  have finish : pgrounddown ((k.virt + k.size + 4294967295) % 4294967296) =
      (k.first + n) * 4096 := by
    unfold Kmap.count at countEq
    unfold pgrounddown Kmap.first
    omega
  unfold mappages
  rw [start, finish, countEq]
  rw [countEq] at last
  refine mappagesLoop_range wf valid.user_le last (fun u low high => ?_) valid.perm
    valid.phys (by omega)
  exact vacant u ⟨low, by omega⟩

theorem RangeMapped.of_covers {s s' : Kernel} {d : Frame} {k : Kmap} {u : Nat}
    (mapped : RangeMapped s s' d k.first k.count k.physStart k.perm)
    (covered : k.Covers u) : Vm.pte s'.mem d u = k.entryOf u :=
  (mapped.pte u).trans (if_pos covered)

theorem RangeMapped.of_not_covers {s s' : Kernel} {d : Frame} {k : Kmap} {u : Nat}
    (mapped : RangeMapped s s' d k.first k.count k.physStart k.perm)
    (uncovered : ¬ k.Covers u) : Vm.pte s'.mem d u = Vm.pte s.mem d u :=
  (mapped.pte u).trans (if_neg uncovered)

/-! ## A list of ranges -/

/-- Some range of the list has a page with index `i` in the directory. -/
def Wanted (ranges : List Kmap) (i : Nat) : Prop :=
  ∃ k ∈ ranges, InRange k.first k.count i

/-- The ranges are mapped. -/
structure RangesMapped (s s' : Kernel) (d : Frame) (ranges : List Kmap) : Prop where
  inside : ∀ k ∈ ranges, ∀ u, k.Covers u → pte s'.mem d u = k.entryOf u
  outside : ∀ u, (∀ k ∈ ranges, ¬ k.Covers u) → pte s'.mem d u = pte s.mem d u
  tables : ∀ i, (tableOf s'.mem d i).isSome ↔
    (tableOf s.mem d i).isSome ∨ Wanted ranges i
  total : total s' d = total s d
  others : ∀ f ∉ Vm.total s d, s'.mem f = s.mem f

theorem wanted_cons {k : Kmap} {rest : List Kmap} {i : Nat} :
    Wanted (k :: rest) i ↔ InRange k.first k.count i ∨ Wanted rest i := by
  simp only [Wanted, List.mem_cons, exists_eq_or_imp]

theorem RangesMapped.cons {s s1 s' : Kernel} {d : Frame} {k : Kmap} {ranges : List Kmap}
    (head : RangeMapped s s1 d k.first k.count k.physStart k.perm)
    (apart : ∀ r ∈ ranges, ∀ u, k.Covers u → ¬ r.Covers u)
    (rest : RangesMapped s1 s' d ranges) : RangesMapped s s' d (k :: ranges) := by
  refine ⟨fun r isHere u covered => ?_, fun u uncovered => ?_, fun i => ?_,
    rest.total.trans head.total, fun f outside => ?_⟩
  · rcases List.mem_cons.mp isHere with rfl | isLater
    · rw [rest.outside u fun q later => apart q later u covered,
        head.of_covers covered]
    · exact rest.inside r isLater u covered
  · rw [rest.outside u fun q later => uncovered q (List.mem_cons_of_mem _ later),
      head.of_not_covers (uncovered k List.mem_cons_self)]
  · rw [rest.tables, head.tables, wanted_cons, or_assoc]
  · rw [rest.others f (by rw [head.total]; exact outside), head.others f outside]

theorem OutOfTables.first {s s' : Kernel} {d : Frame} {k : Kmap} {ranges : List Kmap}
    (out : OutOfTables s s' d (InRange k.first k.count)) :
    OutOfTables s s' d (Wanted (k :: ranges)) := by
  obtain ⟨i, inRange, missing⟩ := out.missing
  exact ⟨out.free, out.user, fun j found => (out.tables j found).imp_right
    fun wanted => wanted_cons.mpr (.inl wanted),
    ⟨i, wanted_cons.mpr (.inl inRange), missing⟩, out.total, out.others⟩

theorem OutOfTables.later {s s1 s' : Kernel} {d : Frame} {k : Kmap}
    {ranges : List Kmap} (valid : k.Valid)
    (head : RangeMapped s s1 d k.first k.count k.physStart k.perm)
    (out : OutOfTables s1 s' d (Wanted ranges)) :
    OutOfTables s s' d (Wanted (k :: ranges)) := by
  have kernel := valid.user_le
  refine ⟨out.free, fun u uLt => ?_, fun i found => ?_, ?_, out.total.trans head.total,
    fun f outside => ?_⟩
  · rw [out.user u uLt, head.pte, if_neg (by omega)]
  · rw [wanted_cons, ← or_assoc, ← head.tables]
    exact out.tables i found
  · obtain ⟨i, wanted, missing⟩ := out.missing
    exact ⟨i, wanted_cons.mpr (.inr wanted), missing⟩
  · rw [out.others f (by rw [head.total]; exact outside), head.others f outside]

/-- The loop of `setupkvm` maps all ranges, or gives all frames back. -/
theorem setupkvmLoop_spec {boot : Boot} {s : Kernel} {d : Frame}
    {extra : Multiset Frame} {ranges : List Kmap} (wf : Wf boot s d extra)
    (valid : ∀ k ∈ ranges, k.Valid)
    (apart : ranges.Pairwise fun k r => ∀ u, k.Covers u → ¬ r.Covers u)
    (vacant : ∀ k ∈ ranges, ∀ u, k.Covers u → ¬ PteP (pte s.mem d u)) :
    (∃ s', setupkvmLoop boot d ranges s = .ok (true, s') ∧
        RangesMapped s s' d ranges) ∨
      ∃ q s', setupkvmLoop boot d ranges s = .ok (false, s') ∧
        OutOfTables s q d (Wanted ranges) ∧ Released s s' d := by
  induction ranges generalizing s with
  | nil =>
      refine .inl ⟨s, rfl, fun k isHere => ?_, fun _ _ => rfl, fun i => ?_, rfl,
        fun _ _ => rfl⟩
      · cases isHere
      · refine (or_iff_left ?_).symm
        rintro ⟨k, isHere, _⟩
        cases isHere
  | cons k rest ih =>
      obtain ⟨headApart, restApart⟩ := List.pairwise_cons.mp apart
      have kValid := valid k List.mem_cons_self
      rcases mappages_kmap wf kValid (vacant k List.mem_cons_self) with
        ⟨s1, run, head⟩ | ⟨q, run, out⟩
      · have wf1 : Wf boot s1 d extra := wf.congr (by rw [head.total])
        have vacant1 (r : Kmap) (later : r ∈ rest) (u : Nat) (covered : r.Covers u) :
            ¬ PteP (pte s1.mem d u) := by
          rw [head.of_not_covers fun inHead => headApart r later u inHead covered]
          exact vacant r (List.mem_cons_of_mem _ later) u covered
        unfold Kmap.size at run
        have unfolded : setupkvmLoop boot d (k :: rest) s =
            setupkvmLoop boot d rest s1 := by
          simp only [setupkvmLoop, bind_apply, run, if_apply,
            if_neg (show ¬ (0 : Int) < 0 by decide)]
        rw [unfolded]
        rcases ih wf1 (fun r later => valid r (List.mem_cons_of_mem _ later)) restApart
          vacant1 with ⟨s', ended, mapped⟩ | ⟨q, s', ended, out, released⟩
        · exact .inl ⟨s', ended, mapped.cons head headApart⟩
        · refine .inr ⟨q, s', ended, out.later kValid head, ?_, fun f outside => ?_⟩
          · rw [released.free, head.total]
          · rw [released.others f (by rw [head.total]; exact outside),
              head.others f outside]
      · have wfOut : Wf boot q d extra := wf.congr (by rw [out.total])
        obtain ⟨s', freed, released⟩ := freevm_spec wfOut
        unfold Kmap.size at run
        refine .inr ⟨q, s', ?_, out.first, ?_, fun f outside => ?_⟩
        · simp only [setupkvmLoop, bind_apply, run, if_apply,
            if_pos (show (-1 : Int) < 0 by decide), freed, pure_apply]
        · rw [released.free, out.total]
        · rw [released.others f (by rw [out.total]; exact outside), out.others f outside]

/-! ## `setupkvm` -/

instance (ranges : List Kmap) (i : Nat) : Decidable (Wanted ranges i) :=
  inferInstanceAs (Decidable (∃ k ∈ ranges, _))

/-- The frames that `setupkvm` needs: the directory and the tables of `kmap`. -/
@[irreducible]
def kernelFrames (boot : Boot) : Nat :=
  1 + ((Finset.range dirEntries).filter (Wanted (kmap boot))).card

/-- A frame buffer that fits between the PCI window and `DEVSPACE`. -/
structure VideoMode (boot : Boot) : Prop where
  nonempty : 0 < boot.vramSize
  fits : boot.vramSize ≤ 0x2e000000
  base : boot.pvramAddr < 4294967296

/-- No frame of the free list has another use. -/
structure FreeWf (boot : Boot) (s : Kernel) (extra : Multiset Frame) : Prop where
  nodup : ((s.freelist : Multiset Frame) + extra).Nodup
  managed : ∀ f ∈ (s.freelist : Multiset Frame) + extra, Managed boot f

theorem kmap_valid {boot : Boot} (mode : VideoMode boot) (k : Kmap)
    (isHere : k ∈ kmap boot) : k.Valid := by
  have nonempty := mode.nonempty
  have fits := mode.fits
  have base := mode.base
  have low : 1048576 < boot.dataAddress := boot.extmem_lt_data
  have order := boot.data_le_end
  have high : boot.endAddress < 536870912 := boot.end_lt_phystop
  simp only [kmap, List.mem_cons, List.not_mem_nil, or_false] at isHere
  rcases isHere with rfl | rfl | rfl | rfl | rfl | rfl
  all_goals
    constructor <;>
      simp only [Kmap.size, kernbase, extmem, phystop, devspace, pciBarBase, pciVpOffset,
        pteW] <;>
      omega

/-- The ranges of `kmap` share no page. -/
theorem kmap_apart {boot : Boot} (mode : VideoMode boot) :
    (kmap boot).Pairwise fun k r => ∀ u, k.Covers u → ¬ r.Covers u := by
  have nonempty := mode.nonempty
  have fits := mode.fits
  have base := mode.base
  have low : 1048576 < boot.dataAddress := boot.extmem_lt_data
  have order := boot.data_le_end
  have high : boot.endAddress < 536870912 := boot.end_lt_phystop
  have aligned := boot.data_aligned
  simp only [kmap, List.pairwise_cons, List.mem_cons, List.not_mem_nil, or_false,
    forall_eq_or_imp, forall_eq, List.Pairwise.nil, and_true, Kmap.Covers, Kmap.first,
    Kmap.count, Kmap.size, false_implies, implies_true, kernbase, extmem, phystop,
    devspace, pciBarBase, pciVpOffset]
  refine ⟨⟨?_, ?_, ?_, ?_, ?_⟩, ⟨?_, ?_, ?_, ?_⟩, ⟨?_, ?_, ?_⟩, ⟨?_, ?_⟩, ?_⟩ <;>
    intro u <;> omega

/-- A new directory, filled with zeros. -/
theorem newDirectory {boot : Boot} {s : Kernel} {d : Frame} {rest : List Frame}
    {extra : Multiset Frame} (wf : FreeWf boot s extra)
    (frames : s.freelist = d :: rest) :
    (∀ i, tableOf (Function.update s.mem d zeroPage) d i = none) ∧
      total ⟨Function.update s.mem d zeroPage, rest⟩ d = (s.freelist : Multiset Frame) ∧
      Wf boot ⟨Function.update s.mem d zeroPage, rest⟩ d extra := by
  have empty (i : Nat) : tableOf (Function.update s.mem d zeroPage) d i = none := by
    unfold tableOf
    rw [entry_zeroPage]
    rfl
  have sum : total ⟨Function.update s.mem d zeroPage, rest⟩ d =
      (s.freelist : Multiset Frame) := by
    unfold total
    rw [owned_of_none empty, frames]
    rfl
  refine ⟨empty, sum, ?_, ?_⟩
  · rw [sum]
    exact wf.nodup
  · rw [sum]
    exact wf.managed

theorem card_tableFrames (mem : Memory) (d : Frame) :
    (tableFrames mem d).card =
      ((Finset.range dirEntries).filter fun i => (tableOf mem d i).isSome).card := by
  unfold tableFrames
  rw [Multiset.card_sum, Finset.card_filter]
  refine Finset.sum_congr rfl fun i _ => ?_
  unfold tableBag
  cases tableOf mem d i <;> rfl

/-- The number of frames of an address space without user pages. -/
theorem card_total {s : Kernel} {d : Frame} (noPages : pageFrames s.mem d = 0) :
    (total s d).card =
      1 + ((Finset.range dirEntries).filter fun i => (tableOf s.mem d i).isSome).card +
        s.freelist.length := by
  unfold total owned
  rw [noPages, add_zero, Multiset.card_add, Multiset.card_add, card_tableFrames,
    Multiset.card_singleton, Multiset.coe_card]

theorem pageFrames_eq_zero {mem : Memory} {d : Frame}
    (vacant : ∀ v < userPages, ¬ PteP (pte mem d v)) : pageFrames mem d = 0 := by
  rw [Multiset.eq_zero_iff_forall_notMem]
  intro f isPage
  obtain ⟨v, vLt, here, _⟩ := mem_pageFrames.mp isPage
  exact vacant v vLt here

theorem Kmap.Valid.not_covers_user {k : Kmap} (valid : k.Valid) {u : Nat}
    (uLt : u < userPages) : ¬ k.Covers u := by
  have kernel := valid.user_le
  rintro ⟨low, _⟩
  omega

theorem Kmap.Valid.index_lt {k : Kmap} (valid : k.Valid) {i : Nat}
    (inRange : InRange k.first k.count i) : i < 1024 := by
  have last := valid.last
  obtain ⟨u, _, high, rfl⟩ := inRange
  omega

/-- What `setupkvm` has built when it succeeds. -/
structure KernelReady (boot : Boot) (s s' : Kernel) (d : Frame)
    (extra : Multiset Frame) : Prop where
  wf : Wf boot s' d extra
  total : total s' d = (s.freelist : Multiset Frame)
  kernel : ∀ k ∈ kmap boot, ∀ u, k.Covers u → pte s'.mem d u = k.entryOf u
  rest : ∀ u, (∀ k ∈ kmap boot, ¬ k.Covers u) → pte s'.mem d u = 0
  tables : ∀ i, (tableOf s'.mem d i).isSome ↔ Wanted (kmap boot) i
  others : ∀ f ∉ s.freelist, s'.mem f = s.mem f
  length : s'.freelist.length + kernelFrames boot = s.freelist.length

/-- The free list holds the same frames, and no other frame has changed. -/
structure SameFrames (s s' : Kernel) : Prop where
  free : (s'.freelist : Multiset Frame) = (s.freelist : Multiset Frame)
  others : ∀ f ∉ s.freelist, s'.mem f = s.mem f

section Setupkvm

variable {boot : Boot} {s s' q : Kernel} {d : Frame} {rest : List Frame}
  {extra : Multiset Frame}

/-- All ranges are mapped in the new directory. -/
theorem RangesMapped.kernelReady (mode : VideoMode boot) (wf : FreeWf boot s extra)
    (frames : s.freelist = d :: rest)
    (mapped : RangesMapped ⟨Function.update s.mem d zeroPage, rest⟩ s' d (kmap boot)) :
    KernelReady boot s s' d extra := by
  obtain ⟨empty, sum, wf0⟩ := newDirectory wf frames
  have vacant (u : Nat) : pte (Function.update s.mem d zeroPage) d u = 0 :=
    pte_of_none (empty _)
  have noUser (v : Nat) (vLt : v < userPages) : ¬ PteP (pte s'.mem d v) := by
    rw [mapped.outside v fun k isHere =>
      (kmap_valid mode k isHere).not_covers_user vLt, vacant]
    decide
  have tables (i : Nat) : (tableOf s'.mem d i).isSome ↔ Wanted (kmap boot) i := by
    rw [mapped.tables, empty]
    simp
  have total' := mapped.total.trans sum
  have count := card_total (pageFrames_eq_zero noUser)
  rw [total', Multiset.coe_card, Finset.filter_congr fun i _ => tables i] at count
  refine ⟨wf0.congr (by rw [mapped.total]), total', mapped.inside, fun u uncovered => ?_,
    tables, fun f notFree => ?_, ?_⟩
  · exact (mapped.outside u uncovered).trans (vacant u)
  · have notDir : f ≠ d := by
      rintro rfl
      exact notFree (frames ▸ List.mem_cons_self)
    refine (mapped.others f ?_).trans (Function.update_of_ne notDir _ _)
    rw [sum]
    exact fun isFree => notFree (Multiset.mem_coe.mp isFree)
  · unfold kernelFrames
    omega

/-- Some wanted table is missing, so there are fewer frames than are wanted. -/
theorem OutOfTables.length_lt (mode : VideoMode boot) (wf : FreeWf boot s extra)
    (frames : s.freelist = d :: rest)
    (out : OutOfTables ⟨Function.update s.mem d zeroPage, rest⟩ q d
      (Wanted (kmap boot))) : s.freelist.length < kernelFrames boot := by
  obtain ⟨empty, sum, _⟩ := newDirectory wf frames
  have noUser (v : Nat) (vLt : v < userPages) : ¬ PteP (pte q.mem d v) := by
    rw [out.user v vLt, pte_of_none (empty _)]
    decide
  have count := card_total (pageFrames_eq_zero noUser)
  rw [out.total, sum, Multiset.coe_card, out.free, List.length_nil] at count
  have fewer : ((Finset.range dirEntries).filter fun i =>
      (tableOf q.mem d i).isSome).card <
      ((Finset.range dirEntries).filter (Wanted (kmap boot))).card := by
    refine Finset.card_lt_card (Finset.ssubset_iff_subset_ne.mpr ⟨fun i => ?_, ?_⟩)
    · rw [Finset.mem_filter, Finset.mem_filter]
      rintro ⟨iLt, found⟩
      refine ⟨iLt, (out.tables i found).resolve_left ?_⟩
      rw [empty]
      simp
    · intro same
      obtain ⟨i, wanted, missing⟩ := out.missing
      have iLt : i < dirEntries := by
        obtain ⟨k, isHere, inRange⟩ := wanted
        rw [dirEntries_eq]
        exact (kmap_valid mode k isHere).index_lt inRange
      have isWanted := Finset.mem_filter.mpr ⟨Finset.mem_range.mpr iLt, wanted⟩
      rw [← same, Finset.mem_filter, missing] at isWanted
      simp at isWanted
  unfold kernelFrames
  omega

theorem setupkvm_cons {result : Bool} (frames : s.freelist = d :: rest)
    (run : setupkvmLoop boot d (kmap boot) ⟨Function.update s.mem d zeroPage, rest⟩ =
      .ok (result, s')) :
    setupkvm boot s = .ok (if result then some d else none, s') := by
  simp only [setupkvm, bind_apply, kalloc_cons frames, storePage, modify_apply,
    if_neg (show ¬ phystop + kernbase > devspace by decide), run, if_apply, pure_apply]
  cases result <;> rfl

/-- `setupkvm` succeeds exactly when the free list is long enough, and gives every
frame back when it fails. -/
theorem setupkvm_spec (mode : VideoMode boot) (wf : FreeWf boot s extra) :
    (kernelFrames boot ≤ s.freelist.length ∧ ∃ d s',
        setupkvm boot s = .ok (some d, s') ∧ KernelReady boot s s' d extra) ∨
      (s.freelist.length < kernelFrames boot ∧ ∃ s',
        setupkvm boot s = .ok (none, s') ∧ SameFrames s s') := by
  cases frames : s.freelist with
  | nil =>
      refine .inr ⟨?_, s, ?_, rfl, fun _ _ => rfl⟩
      · unfold kernelFrames
        rw [List.length_nil]
        omega
      · simp only [setupkvm, bind_apply, kalloc_nil frames, pure_apply]
  | cons d rest =>
      obtain ⟨empty, sum, wf0⟩ := newDirectory wf frames
      have vacant (k : Kmap) (_ : k ∈ kmap boot) (u : Nat) (_ : k.Covers u) :
          ¬ PteP (pte (Function.update s.mem d zeroPage) d u) := by
        rw [pte_of_none (empty _)]
        decide
      rw [← frames]
      rcases setupkvmLoop_spec wf0 (kmap_valid mode) (kmap_apart mode) vacant with
        ⟨s', run, mapped⟩ | ⟨q, s', run, out, released⟩
      · have ready := mapped.kernelReady mode wf frames
        have length := ready.length
        exact .inl ⟨by omega, d, s', setupkvm_cons frames run, ready⟩
      · refine .inr ⟨out.length_lt mode wf frames, s', setupkvm_cons frames run, ?_,
          fun f notFree => ?_⟩
        · rw [released.free, sum]
        · have notDir : f ≠ d := by
            rintro rfl
            exact notFree (frames ▸ List.mem_cons_self)
          refine (released.others f ?_).trans (Function.update_of_ne notDir _ _)
          rw [sum]
          exact fun isFree => notFree (Multiset.mem_coe.mp isFree)

end Setupkvm

end Xv6.Vm
