import Xv6.UserSizes

/-!
# The size of a process

The present user pages of a process are those below its size.  `allocuvm` and
`deallocuvm` keep this for every size, and `growproc` builds on both; it takes
the size 0 that `deallocuvm` returns for an error, and a size that wraps around
for no change.
-/

namespace Xv6.Vm

open StateTriples

/-- The present user pages are the first `n`. -/
def PresentBelow (mem : Memory) (d : Frame) (n : Nat) : Prop :=
  ∀ v < userPages, PteP (pte mem d v) ↔ v < n

theorem PresentBelow.vacant {mem : Memory} {d : Frame} {n : Nat}
    (exactly : PresentBelow mem d n) (u : Nat) (low : n ≤ u) (uLt : u < userPages) :
    ¬ PteP (pte mem d u) := fun here =>
  absurd ((exactly u uLt).mp here) (by omega)

/-- The pages of the addresses from `PGROUNDUP(newsz)` up to `oldsz`. -/
theorem page_between {newsz oldsz v : Nat} (bound : oldsz ≤ kernbase)
    (less : newsz < oldsz) :
    (pages newsz ≤ v ∧ v < pages newsz + (pages oldsz - pages newsz)) ↔
      pgroundup newsz ≤ v * 4096 ∧ v * 4096 < oldsz := by
  have top : oldsz ≤ 2147483648 := bound
  unfold pages pgroundup
  omega

theorem Growing.presentBelow {boot : Boot} {s s' : Kernel} {d : Frame}
    {extra : Multiset Frame} {lo hi : Nat}
    (growing : Growing boot s s' d extra lo hi) (order : lo ≤ hi)
    (exactly : PresentBelow s.mem d lo) : PresentBelow s'.mem d hi := by
  intro v vLt
  by_cases isNew : lo ≤ v ∧ v < hi
  · obtain ⟨f, _, entry, _⟩ := growing.mapped v isNew.1 isNew.2
    rw [entry]
    exact iff_of_true (pteP_entry f (by decide)) isNew.2
  · rw [growing.outside v (by omega), exactly v vLt]
    omega

/-- A frame that was free before a failed `allocuvm` is free again, unless it
became a table. -/
theorem Restored.returned {boot : Boot} {s s' : Kernel} {d : Frame}
    {extra : Multiset Frame} (wf : Wf boot s d extra) (restored : Restored s s' d)
    {f : Frame} (isFree : f ∈ s.freelist) :
    f ∈ s'.freelist ∨ ∃ i, tableOf s'.mem d i = some f := by
  have notOwned := wf.free_notOwned isFree
  have inTotal : f ∈ total s' d := by
    rw [restored.kept.total]
    exact mem_total.mpr (.inr isFree)
  rcases mem_total.mp inTotal with isOwned | isListed
  · rcases mem_owned.mp isOwned with isDir | isTable | ⟨v, vLt, here, address⟩
    · exact absurd (mem_owned.mpr (.inl isDir)) notOwned
    · exact .inr isTable
    · have before := restored.pages v
      unfold present at before
      rw [if_pos here] at before
      split at before
      · rename_i hereBefore
        rw [Option.some.inj before] at address
        exact absurd (mem_owned.mpr (.inr (.inr ⟨v, vLt, hereBefore, address⟩))) notOwned
      · cases before
  · exact .inl isListed

/-- `deallocuvm` frees and clears exactly the present pages of its range.
Where the present user pages are those below `oldsz`, `allocuvm` makes them
those below `newsz` with zeroed frames from the free list, or changes no page
and gives every frame back that did not become a table. -/
theorem allocuvm_deallocuvm_exact {boot : Boot} {s : Kernel} {d : Frame} :
    (∀ oldsz newsz, Dir boot s.mem d → oldsz ≤ kernbase → newsz < oldsz →
      ∃ s', deallocuvm boot d oldsz newsz s = .ok (newsz, s') ∧
        (∀ v, pte s'.mem d v =
          if (pgroundup newsz ≤ v * 4096 ∧ v * 4096 < oldsz) ∧ PteP (pte s.mem d v)
          then 0 else pte s.mem d v) ∧
        Freed d s s' (pages newsz) (pages oldsz - pages newsz)) ∧
    ∀ extra oldsz newsz, Wf boot s d extra → PresentBelow s.mem d (pages oldsz) →
      oldsz ≤ newsz → newsz < kernbase →
      (∃ s', allocuvm boot d oldsz newsz s = .ok (newsz, s') ∧
          PresentBelow s'.mem d (pages newsz) ∧
          Growing boot s s' d extra (pages oldsz) (pages newsz)) ∨
        ∃ s', allocuvm boot d oldsz newsz s = .ok (0, s') ∧ Restored s s' d ∧
          ∀ f ∈ s.freelist, f ∈ s'.freelist ∨ ∃ i, tableOf s'.mem d i = some f := by
  refine ⟨fun oldsz newsz dir bound less => ?_,
    fun extra oldsz newsz wf exactly order bound => ?_⟩
  · have range : pages newsz + (pages oldsz - pages newsz) ≤ userPages := by
      have size := userPages_eq
      have top : oldsz ≤ 2147483648 := bound
      unfold pages
      omega
    have freed := freeRange_freed dir range
    refine ⟨_, deallocuvm_eq dir bound less, fun v => ?_, freed⟩
    rw [freed.pte]
    simp only [← page_between bound less, and_assoc]
  · have more : pages oldsz ≤ pages newsz := by
      unfold pages
      omega
    rcases allocuvm_spec wf exactly.vacant order bound with
      ⟨-, s', run, growing⟩ | ⟨-, s', run, restored⟩
    · exact .inl ⟨s', run, growing.presentBelow more exactly, growing⟩
    · exact .inr ⟨s', run, restored, fun f isFree => restored.returned wf isFree⟩

/-- A kernel of 16 pages from 1 MB on. -/
def smallBoot : Boot where
  endAddress := 0x110000
  dataAddress := 0x108000
  pvramAddr := 0x80000000
  vramSize := 0x1d4c00
  extmem_lt_data := by decide
  data_le_end := by decide
  end_lt_phystop := by decide
  data_aligned := by decide

/-- An empty address space with directory 512, and a free list. -/
def emptySpace (free : List Frame) : Kernel := ⟨fun _ => zeroPage, free⟩

theorem emptySpace_tables (free : List Frame) (i : Nat) :
    tableOf (emptySpace free).mem 512 i = none := by
  simp [tableOf, emptySpace, entry, zeroPage, ByteFields.getWord, ByteFields.getHalf,
    ByteFields.getByte, PteP]

theorem emptySpace_wf {free held : List Frame}
    (nodup : (512 :: free ++ held).Nodup)
    (managed : ∀ f ∈ 512 :: free ++ held, Managed smallBoot f) :
    Wf smallBoot (emptySpace free) 512 held := by
  have frames : total (emptySpace free) 512 + (held : Multiset Frame) =
      ((512 :: free ++ held : List Frame) : Multiset Frame) := by
    unfold total
    rw [owned_of_none (emptySpace_tables free)]
    rfl
  refine ⟨?_, ?_⟩
  · rw [frames]
    exact Multiset.coe_nodup.mpr nodup
  · rw [frames]
    exact managed

/-! ## `growproc` -/

/-- `growproc` for a process with this directory and size; it returns its
result and the new size. -/
def growproc (boot : Boot) (pgdir : Frame) (sz : Nat) (n : Int) :
    KernelM (Int × Nat) := do
  let newsz := ((sz + n) % 4294967296).toNat
  if n > 0 then
    let sz' ← allocuvm boot pgdir sz newsz
    if sz' = 0 then return (-1, sz)
    else return (0, sz')
  else if n < 0 then
    let sz' ← deallocuvm boot pgdir sz newsz
    if sz' = 0 then return (-1, sz)
    else return (0, sz')
  else return (0, sz)

/-- Every user page, its entry and its bytes are as before. -/
def SameUser (s s' : Kernel) (d : Frame) : Prop :=
  (∀ v < userPages, present s'.mem d v = present s.mem d v) ∧
    ∀ v < userPages, PteP (pte s.mem d v) →
      s'.mem (pteAddr (pte s.mem d v)) = s.mem (pteAddr (pte s.mem d v))

/-- There are frames for `n` more bytes below the kernel. -/
def Grows (s : Kernel) (d : Frame) (sz : Nat) (n : Int) : Prop :=
  0 < n ∧ sz + n < kernbase ∧
    growFrames s.mem d (pages sz) (pages (sz + n).toNat) ≤ s.freelist.length

instance (s : Kernel) (d : Frame) (sz : Nat) (n : Int) : Decidable (Grows s d sz n) :=
  inferInstanceAs (Decidable (_ ∧ _ ∧ _))

/-- `growproc` returns, and it changes the size by `n` or nothing at all. -/
def AllOrNothing (boot : Boot) (s : Kernel) (d : Frame) (sz : Nat) (n : Int) : Prop :=
  ∃ result sz' s', growproc boot d sz n s = .ok ((result, sz'), s') ∧
    ((result = 0 ∧ (sz' : Int) = sz + n ∧ PresentBelow s'.mem d (pages sz')) ∨
      (result = -1 ∧ sz' = sz ∧ SameUser s s' d))

theorem Restored.sameUser {s s' : Kernel} {d : Frame} (restored : Restored s s' d) :
    SameUser s s' d := by
  refine ⟨fun v _ => restored.pages v, fun v vLt here => ?_⟩
  refine restored.kept.contents v vLt here ?_
  have same := restored.pages v
  unfold present at same
  rw [if_pos here] at same
  by_contra gone
  rw [if_neg gone] at same
  cases same

theorem restored_refl (s : Kernel) (d : Frame) : Restored s s d :=
  ⟨⟨rfl, fun _ _ found => found, fun _ _ _ _ => rfl, fun _ _ => rfl⟩, fun _ => rfl⟩

theorem sameUser_refl (s : Kernel) (d : Frame) : SameUser s s d :=
  ⟨fun _ _ => rfl, fun _ _ _ => rfl⟩

/-- The pages that `deallocuvm` leaves. -/
theorem freeRange_presentBelow {boot : Boot} {s : Kernel} {d : Frame}
    {oldsz newsz : Nat} (dir : Dir boot s.mem d) (bound : oldsz ≤ kernbase)
    (less : newsz < oldsz) (exactly : PresentBelow s.mem d (pages oldsz)) :
    PresentBelow (freeRange d (pages newsz) (pages oldsz - pages newsz) s).mem d
      (pages newsz) := by
  have size := userPages_eq
  have top : oldsz ≤ 2147483648 := bound
  have fewer : pages newsz ≤ pages oldsz := by
    unfold pages
    omega
  have range : pages newsz + (pages oldsz - pages newsz) ≤ userPages := by
    unfold pages
    omega
  have freed := freeRange_freed dir range
  intro v vLt
  rw [freed.pte]
  by_cases inside : pages newsz ≤ v ∧ v < pages newsz + (pages oldsz - pages newsz)
  · rw [if_pos ⟨inside.1, inside.2, (exactly v vLt).mpr (by omega)⟩]
    exact iff_of_false (by decide) (by omega)
  · rw [if_neg fun h => inside ⟨h.1, h.2.1⟩, exactly v vLt]
    omega

section Growproc

variable {boot : Boot} {s : Kernel} {d : Frame} {extra : Multiset Frame}
  {sz : Nat} {n : Int}

/-- `growproc` for a positive amount. -/
theorem growproc_grow (wf : Wf boot s d extra)
    (vacant : ∀ u, pages sz ≤ u → u < userPages → ¬ PteP (pte s.mem d u))
    (szLt : sz < kernbase) (positive : 0 < n) (nLt : n < 2147483648) :
    (Grows s d sz n ∧ ∃ (newsz : Nat) (s' : Kernel), (newsz : Int) = sz + n ∧ newsz < kernbase ∧
        growproc boot d sz n s = .ok ((0, newsz), s') ∧
        Growing boot s s' d extra (pages sz) (pages newsz)) ∨
      ¬ Grows s d sz n ∧
        ∃ s', growproc boot d sz n s = .ok ((-1, sz), s') ∧ Restored s s' d := by
  have szLt' : sz < 2147483648 := szLt
  have sum : (((sz + n) % 4294967296).toNat : Int) = sz + n := by omega
  have size : (sz + n).toNat = ((sz + n) % 4294967296).toNat := by omega
  unfold Grows
  rw [size]
  generalize newszEq : ((sz + n) % 4294967296).toNat = newsz at sum
  by_cases fits : newsz < kernbase
  · rcases allocuvm_spec wf vacant (by omega : sz ≤ newsz) fits with
      ⟨frames, s', run, growing⟩ | ⟨few, s', run, restored⟩
    · refine .inl ⟨⟨positive, by omega, frames⟩, newsz, s', sum, fits, ?_, growing⟩
      simp only [growproc, newszEq, if_apply, bind_apply, pure_apply,
        if_pos (show n > 0 from positive), run, if_neg (show newsz ≠ 0 by omega)]
    · refine .inr ⟨fun grows => absurd grows.2.2 (Nat.not_le.mpr few), s', ?_, restored⟩
      simp only [growproc, newszEq, if_apply, bind_apply, pure_apply,
        if_pos (show n > 0 from positive), run, if_true]
  · refine .inr ⟨fun grows => fits (by omega), s, ?_, restored_refl s d⟩
    have refused : allocuvm boot d sz newsz s = .ok (0, s) := by
      simp only [allocuvm, if_apply, pure_apply,
        if_pos (show newsz ≥ kernbase by omega)]
    simp only [growproc, newszEq, if_apply, bind_apply, pure_apply,
      if_pos (show n > 0 from positive), refused, if_true]

theorem allOrNothing_grow (wf : Wf boot s d extra)
    (exactly : PresentBelow s.mem d (pages sz)) (szLt : sz < kernbase)
    (positive : 0 < n) (nLt : n < 2147483648) : AllOrNothing boot s d sz n := by
  rcases growproc_grow wf exactly.vacant szLt positive nLt with
    ⟨-, newsz, s', sum, -, run, growing⟩ | ⟨-, s', run, restored⟩
  · have more : pages sz ≤ pages newsz := by
      unfold pages
      omega
    exact ⟨0, newsz, s', run, .inl ⟨rfl, sum, growing.presentBelow more exactly⟩⟩
  · exact ⟨-1, sz, s', run, .inr ⟨rfl, rfl, restored.sameUser⟩⟩

/-- What `growproc` does for a negative `n` that the size covers. -/
theorem growproc_shrink (dir : Dir boot s.mem d) (szLt : sz < kernbase)
    (negative : n < 0) (covered : 0 ≤ sz + n) :
    growproc boot d sz n s =
      .ok (if sz + n = 0 then (-1, sz) else (0, (sz + n).toNat),
        freeRange d (pages (sz + n).toNat) (pages sz - pages (sz + n).toNat) s) := by
  have szLt' : sz < 2147483648 := szLt
  have sum : ((sz + n) % 4294967296).toNat = (sz + n).toNat := by omega
  have run := deallocuvm_eq dir szLt.le (by omega : (sz + n).toNat < sz)
  simp only [growproc, sum, if_apply, bind_apply, pure_apply,
    if_neg (show ¬ n > 0 by omega), if_pos negative, run]
  by_cases empty : sz + n = 0
  · rw [if_pos empty, if_pos (by omega)]
  · rw [if_neg empty, if_neg (by omega)]

/-- What `growproc` does for a negative `n` that the size does not cover: the
new size wraps around and is the larger one for `deallocuvm`. -/
theorem growproc_wrap (szLt : sz < kernbase) (nLow : -2147483648 ≤ n)
    (below : sz + n < 0) :
    growproc boot d sz n s = .ok (if sz = 0 then (-1, sz) else (0, sz), s) := by
  have szLt' : sz < 2147483648 := szLt
  have wrapped : ((sz + n) % 4294967296).toNat ≥ sz := by omega
  simp only [growproc, deallocuvm, if_apply, bind_apply, pure_apply,
    if_neg (show ¬ n > 0 by omega), if_pos (show n < 0 by omega), if_pos wrapped]
  by_cases empty : sz = 0
  · rw [if_pos empty, if_pos empty]
  · rw [if_neg empty, if_neg empty]

/-- More than the process has. -/
theorem allOrNothing_wrap (szLt : sz < kernbase) (nLow : -2147483648 ≤ n)
    (below : sz + n < 0) : AllOrNothing boot s d sz n ↔ sz = 0 := by
  have run := @growproc_wrap boot s d sz n szLt nLow below
  constructor
  · rintro ⟨result, sz', s', ended, holds⟩
    rw [run] at ended
    by_contra some
    rw [if_neg some] at ended
    cases ended
    rcases holds with ⟨_, change, _⟩ | ⟨failed, _⟩
    · omega
    · cases failed
  · intro none
    rw [if_pos none] at run
    exact ⟨-1, sz, s, run, .inr ⟨rfl, rfl, sameUser_refl s d⟩⟩

/-- All that the process has: page 0 was there and is not any more. -/
theorem not_allOrNothing_all (dir : Dir boot s.mem d)
    (exactly : PresentBelow s.mem d (pages sz)) (szLt : sz < kernbase)
    (negative : n < 0) (empty : sz + n = 0) : ¬ AllOrNothing boot s d sz n := by
  have size := userPages_eq
  have run := growproc_shrink dir szLt negative empty.ge
  rw [if_pos empty] at run
  rintro ⟨result, sz', s', ended, holds⟩
  rw [run] at ended
  cases ended
  rcases holds with ⟨failed, _⟩ | ⟨_, _, same, _⟩
  · cases failed
  · have newEmpty := freeRange_presentBelow dir szLt.le
      (by omega : (sz + n).toNat < sz) exactly
    have before : PteP (pte s.mem d 0) := (exactly 0 (by omega)).mpr (by
      unfold pages
      omega)
    have after : ¬ PteP (pte (freeRange d (pages (sz + n).toNat)
        (pages sz - pages (sz + n).toNat) s).mem d 0) :=
      newEmpty.vacant 0 (by unfold pages; omega) (by omega)
    have both := same 0 (by omega)
    unfold present at both
    rw [if_pos before, if_neg after] at both
    cases both

/-- `growproc` is all-or-nothing unless the process gives back all of its
memory or more than it has. -/
theorem allOrNothing_iff (wf : Wf boot s d extra)
    (exactly : PresentBelow s.mem d (pages sz)) (szLt : sz < kernbase)
    (nLow : -2147483648 ≤ n) (nHigh : n < 2147483648) :
    AllOrNothing boot s d sz n ↔ 0 ≤ n ∨ sz = 0 ∨ 0 < sz + n := by
  rcases lt_trichotomy n 0 with negative | zero | positive
  · rcases lt_trichotomy (sz + n) 0 with below | empty | above
    · rw [allOrNothing_wrap szLt nLow below]
      omega
    · exact iff_of_false (not_allOrNothing_all wf.dir exactly szLt negative empty)
        (by omega)
    · have run := growproc_shrink wf.dir szLt negative above.le
      rw [if_neg above.ne'] at run
      refine iff_of_true ⟨0, _, _, run, .inl ⟨rfl, by omega, ?_⟩⟩ (.inr (.inr above))
      exact freeRange_presentBelow wf.dir szLt.le (by omega) exactly
  · subst zero
    refine iff_of_true ⟨0, sz, s, ?_, .inl ⟨rfl, by omega, exactly⟩⟩ (.inl le_rfl)
    simp only [growproc, pure_apply, gt_iff_lt, lt_irrefl, if_false]
  · exact iff_of_true (allOrNothing_grow wf exactly szLt positive nHigh) (.inl positive.le)

end Growproc

/-- An address space with directory 512, table 600 and frame 601 for page 0. -/
def onePage : Kernel :=
  ⟨setEntry (newTable (fun _ => zeroPage) 512 0 600) 600 0 (601 * 4096 ||| pteWU ||| 1),
    [602]⟩

theorem onePage_mapped :
    EntryMapped (emptySpace [600, 602]) onePage 512 0 (601 * 4096 ||| pteWU ||| 1) := by
  have wf : Wf smallBoot (emptySpace [600, 602]) 512 ([601] : List Frame) :=
    emptySpace_wf (by decide) (by decide)
  refine mapEntry_mapped wf.separate (by decide) ?_ (by decide) (by decide) ?_
  · rw [pte_of_none (emptySpace_tables _ _)]
    decide
  · simp only [mapEntry, withTable, emptySpace_tables]
    rfl

theorem onePage_wf : Wf smallBoot onePage 512 0 := by
  have wf : Wf smallBoot (emptySpace [600, 602]) 512 ([601] : List Frame) :=
    emptySpace_wf (by decide) (by decide)
  refine wf.congr ?_
  rw [onePage_mapped.user (by rw [userPages_eq]; decide), add_zero]
  rfl

theorem onePage_presentBelow : PresentBelow onePage.mem 512 (pages 4096) := by
  intro v _
  rw [onePage_mapped.pte]
  by_cases first : v = 0
  · subst first
    exact iff_of_true (by decide) (by decide)
  · rw [if_neg first, pte_of_none (emptySpace_tables _ _)]
    exact iff_of_false (by decide) (by rw [show pages 4096 = 1 from rfl]; omega)

/-- The page is given back; and one more takes the free frame, for it needs no new
table. -/
theorem onePage_exact :
    (∃ s', deallocuvm smallBoot 512 4096 0 onePage = .ok (0, s') ∧
        pte s'.mem 512 0 = 0 ∧ s'.freelist = [601, 602]) ∧
      ∃ s', allocuvm smallBoot 512 4096 8192 onePage = .ok (8192, s') ∧
        PresentBelow s'.mem 512 2 ∧ pte s'.mem 512 1 = 602 * 4096 ||| pteWU ||| 1 ∧
        s'.mem 602 = zeroPage := by
  obtain ⟨shrink, grow⟩ := @allocuvm_deallocuvm_exact smallBoot onePage 512
  constructor
  · obtain ⟨s', run, cleared, freed⟩ := shrink 4096 0 onePage_wf.dir (by decide) (by decide)
    have here : PteP (pte onePage.mem 512 0) :=
      (onePage_presentBelow 0 (by rw [userPages_eq]; decide)).mpr (by decide)
    refine ⟨s', run, ?_, ?_⟩
    · rw [cleared, if_pos ⟨by decide, here⟩]
    · rw [freed.freelist]
      decide +kernel
  · have enough : (match allocuvm smallBoot 512 4096 8192 onePage with
        | .ok (newsz, _) => newsz
        | .error _ => 0) = 8192 := by
      decide +kernel
    rcases grow 0 4096 8192 onePage_wf onePage_presentBelow (by decide) (by decide) with
      ⟨s', run, exactly, growing⟩ | ⟨s', run, -⟩
    · obtain ⟨f, isFree, entry, zero⟩ := growing.mapped 1 (by decide) (by decide)
      obtain rfl : f = 602 := List.mem_singleton.mp isFree
      exact ⟨s', run, exactly, entry, zero⟩
    · rw [run] at enough
      cases enough

theorem onePage_allOrNothing : AllOrNothing smallBoot onePage 512 4096 (-100) :=
  (allOrNothing_iff onePage_wf onePage_presentBelow (by decide) (by decide)
    (by decide)).mpr (by decide)

/-- A process of one page gives it back: `growproc` fails, and the page is
gone.  A process of one page gives back two: `growproc` succeeds, and the page is
still there. -/
theorem onePage_not_allOrNothing :
    Wf smallBoot onePage 512 0 ∧ PresentBelow onePage.mem 512 (pages 4096) ∧
      ¬ AllOrNothing smallBoot onePage 512 4096 (-4096) ∧
      ¬ AllOrNothing smallBoot onePage 512 4096 (-8192) := by
  refine ⟨onePage_wf, onePage_presentBelow, ?_, ?_⟩
  · exact not_allOrNothing_all onePage_wf.dir onePage_presentBelow (by decide)
      (by decide) (by decide)
  · rw [allOrNothing_wrap (by decide) (by decide) (by decide)]
    decide

end Xv6.Vm
