import Xv6.PageMapping

/-!
# Growing and shrinking an address space

`deallocuvm` skips the rest of a directory entry when its table is missing.
This is the same as looking at every page of the range, since pages without a
table have nothing to free.  `allocuvm` maps zeroed frames page by page and, when
the allocator runs out, frees exactly the pages that it has mapped.
-/

namespace Xv6.Vm

open ByteFields StateTriples

/-- The number of pages that hold `sz` bytes. -/
def pages (sz : Nat) : Nat := (sz + 4095) / 4096

/-- The entry of a page that is present. -/
def present (mem : Memory) (d : Frame) (v : Nat) : Option Nat :=
  if PteP (pte mem d v) then some (pte mem d v) else none

/-- The frame of a page that is present. -/
def frameAt (mem : Memory) (d : Frame) (v : Nat) : Option Frame :=
  if PteP (pte mem d v) then some (pteAddr (pte mem d v)) else none

/-! ## Freeing pages one by one -/

/-- Free one page and clear its entry. -/
def freePage (d : Frame) (s : Kernel) (v : Nat) : Kernel :=
  if PteP (pte s.mem d v) then
    { mem := setEntry
        (Function.update s.mem (pteAddr (pte s.mem d v)) (freedPage s.freelist.head?))
        ((tableOf s.mem d (v / 1024)).getD 0) (v % 1024) 0
      freelist := pteAddr (pte s.mem d v) :: s.freelist }
  else s

/-- Free the pages from `lo` on, `n` of them. -/
def freeRange (d : Frame) (lo n : Nat) (s : Kernel) : Kernel :=
  (List.range' lo n).foldl (freePage d) s

theorem freeRange_add (d : Frame) (lo m n : Nat) (s : Kernel) :
    freeRange d lo (m + n) s = freeRange d (lo + m) n (freeRange d lo m s) := by
  unfold freeRange
  rw [← List.foldl_append, List.range'_append_1]

theorem freeRange_succ (d : Frame) (lo n : Nat) (s : Kernel) :
    freeRange d lo (n + 1) s = freeRange d (lo + 1) n (freePage d s lo) := by
  unfold freeRange
  rw [List.range'_succ, List.foldl_cons]

theorem freeRange_vacant {d : Frame} {lo n : Nat} {s : Kernel}
    (vacant : ∀ u, lo ≤ u → u < lo + n → ¬ PteP (pte s.mem d u)) :
    freeRange d lo n s = s := by
  induction n generalizing lo with
  | zero => rfl
  | succ n ih =>
      have first : freePage d s lo = s := by
        unfold freePage
        rw [if_neg (vacant lo le_rfl (by omega))]
      rw [freeRange_succ, first]
      exact ih fun u low high => vacant u (by omega) (by omega)

theorem exists_table {mem : Memory} {d : Frame} {v : Nat}
    (here : PteP (pte mem d v)) : ∃ t, tableOf mem d (v / 1024) = some t := by
  unfold pte at here
  cases found : tableOf mem d (v / 1024) with
  | some t => exact ⟨t, rfl⟩
  | none => simp [found, PteP] at here

/-- What freeing one page does to the map. -/
theorem freePage_map {boot : Boot} {s : Kernel} {d : Frame} {v : Nat}
    (dir : Dir boot s.mem d) (vLt : v < userPages) :
    (∀ i, tableOf (freePage d s v).mem d i = tableOf s.mem d i) ∧
      ∀ u, pte (freePage d s v).mem d u =
        if u = v ∧ PteP (pte s.mem d v) then 0 else pte s.mem d u := by
  unfold freePage
  by_cases here : PteP (pte s.mem d v)
  · rw [if_pos here]
    obtain ⟨t, found⟩ := exists_table here
    obtain ⟨_, notDir, notTable⟩ := dir.pages v vLt here
    have tables (i : Nat) : tableOf (Function.update s.mem
        (pteAddr (pte s.mem d v)) (freedPage s.freelist.head?)) d i =
          tableOf s.mem d i := tableOf_update _ i (Ne.symm notDir)
    have other : d ≠ t := by
      rintro rfl
      exact dir.dir _ found
    simp only [found, Option.getD_some]
    refine ⟨fun i => (tableOf_setEntry 0 i other).trans (tables i), fun u => ?_⟩
    rw [pte_setEntry 0 u (fun i => by rw [tables]; exact dir.dir i)
      (fun i j w => by rw [tables, tables]; exact dir.tables i j w)
      ((tables _).trans found) (by omega),
      pte_update _ u (Ne.symm notDir) notTable]
    have place : v / 1024 * 1024 + v % 1024 = v := by omega
    by_cases same : u = v
    · rw [if_pos (by omega), if_pos ⟨same, here⟩]
    · rw [if_neg (by omega), if_neg (fun h => same h.1)]
  · rw [if_neg here]
    exact ⟨fun _ => rfl, fun u => by rw [if_neg (fun h => here h.2)]⟩

theorem freePage_dir {boot : Boot} {s : Kernel} {d : Frame} {v : Nat}
    (dir : Dir boot s.mem d) (vLt : v < userPages) :
    Dir boot (freePage d s v).mem d := by
  obtain ⟨tables, entries⟩ := freePage_map dir vLt
  refine ⟨fun i => ?_, fun i j t => ?_, fun u uLt here => ?_⟩
  · rw [tables]
    exact dir.dir i
  · rw [tables, tables]
    exact dir.tables i j t
  · rw [entries] at here ⊢
    split at here
    · exact absurd here (by decide)
    · rename_i kept
      rw [if_neg kept]
      obtain ⟨managed, notDir, notTable⟩ := dir.pages u uLt here
      exact ⟨managed, notDir, fun i => by rw [tables]; exact notTable i⟩

/-- What freeing a range of pages does. -/
structure Freed (d : Frame) (s s' : Kernel) (lo n : Nat) : Prop where
  tables : ∀ i, tableOf s'.mem d i = tableOf s.mem d i
  pte : ∀ u, pte s'.mem d u =
    if lo ≤ u ∧ u < lo + n ∧ PteP (pte s.mem d u) then 0 else pte s.mem d u
  freelist : s'.freelist =
    ((List.range' lo n).filterMap (frameAt s.mem d)).reverse ++ s.freelist
  mem : ∀ f, (∀ i, tableOf s.mem d i ≠ some f) →
    (∀ u, lo ≤ u → u < lo + n → frameAt s.mem d u ≠ some f) → s'.mem f = s.mem f

theorem freePage_mem {s : Kernel} {d : Frame} {v : Nat} {f : Frame}
    (notTable : ∀ i, tableOf s.mem d i ≠ some f)
    (notFreed : frameAt s.mem d v ≠ some f) :
    (freePage d s v).mem f = s.mem f := by
  unfold freePage
  by_cases here : PteP (pte s.mem d v)
  · rw [if_pos here]
    obtain ⟨t, found⟩ := exists_table here
    have notT : f ≠ t := by
      rintro rfl
      exact notTable _ found
    have notFrame : f ≠ pteAddr (pte s.mem d v) := by
      rintro rfl
      exact notFreed (if_pos here)
    simp only [found, Option.getD_some, setEntry]
    rw [Function.update_of_ne notT, Function.update_of_ne notFrame]
  · rw [if_neg here]

theorem freeRange_freed {boot : Boot} {s : Kernel} {d : Frame} {lo n : Nat}
    (dir : Dir boot s.mem d) (bound : lo + n ≤ userPages) :
    Freed d s (freeRange d lo n s) lo n := by
  induction n generalizing lo s with
  | zero =>
      exact ⟨fun _ => rfl, fun u => by rw [if_neg (by omega)]; rfl, rfl,
        fun _ _ _ => rfl⟩
  | succ n ih =>
      have loLt : lo < userPages := by omega
      obtain ⟨tables, entries⟩ := freePage_map dir loLt
      have freed := ih (freePage_dir dir loLt) (by omega : lo + 1 + n ≤ userPages)
      have later {u : Nat} (other : u ≠ lo) :
          pte (freePage d s lo).mem d u = pte s.mem d u := by
        rw [entries, if_neg (fun h => other h.1)]
      have framesLater {u : Nat} (other : u ≠ lo) :
          frameAt (freePage d s lo).mem d u = frameAt s.mem d u := by
        unfold frameAt
        rw [later other]
      rw [freeRange_succ]
      refine ⟨fun i => (freed.tables i).trans (tables i), fun u => ?_, ?_,
        fun f notTable notFreed => ?_⟩
      · rw [freed.pte]
        by_cases first : u = lo
        · subst first
          rw [if_neg (by omega), entries]
          by_cases here : PteP (pte s.mem d u)
          · rw [if_pos ⟨rfl, here⟩, if_pos ⟨le_rfl, by omega, here⟩]
          · rw [if_neg (fun h => here h.2), if_neg (fun h => here h.2.2)]
        · rw [later first]
          by_cases inside : lo + 1 ≤ u ∧ u < lo + 1 + n ∧ PteP (pte s.mem d u)
          · rw [if_pos inside, if_pos ⟨by omega, by omega, inside.2.2⟩]
          · rw [if_neg inside,
              if_neg (fun h => inside ⟨by omega, by omega, h.2.2⟩)]
      · have frames : (List.range' (lo + 1) n).filterMap
            (frameAt (freePage d s lo).mem d) =
            (List.range' (lo + 1) n).filterMap (frameAt s.mem d) := by
          refine List.filterMap_congr fun u uMem => framesLater ?_
          have := (List.mem_range'_1.mp uMem).1
          omega
        rw [freed.freelist, frames, List.range'_succ, List.filterMap_cons]
        unfold freePage frameAt
        by_cases here : PteP (pte s.mem d lo)
        · simp [here]
        · simp [here]
      · rw [freed.mem f (fun i => by rw [tables]; exact notTable i)
          fun u low high => ?_]
        · exact freePage_mem notTable (notFreed lo le_rfl (by omega))
        · rw [framesLater (by omega)]
          exact notFreed u (by omega) (by omega)

/-! ## `deallocuvm` -/

theorem kfree_apply {boot : Boot} {f : Frame} (managed : Managed boot f)
    (s : Kernel) :
    kfree boot f s = .ok (⟨⟩,
      { mem := Function.update s.mem f (freedPage s.freelist.head?)
        freelist := f :: s.freelist }) := by
  unfold kfree
  rw [if_pos managed, modify_apply]

/-- One iteration of the loop at a page that has a table. -/
theorem deallocuvmLoop_table {boot : Boot} {s : Kernel} {d t : Frame}
    {v oldsz : Nat} (dir : Dir boot s.mem d) (vLt : v < userPages)
    (inside : v * 4096 < oldsz) (found : tableOf s.mem d (v / 1024) = some t)
    (fuel : Nat) :
    deallocuvmLoop boot d oldsz (fuel + 1) (v * 4096) s =
      deallocuvmLoop boot d oldsz fuel ((v + 1) * 4096) (freePage d s v) := by
  have size := userPages_eq
  have walked : walkpgdir s.mem d (v * 4096) = some (t, v % 1024) := by
    rw [walkpgdir_eq, pdx_page (by omega), ptx_page, found]
    rfl
  have next : (v * 4096 + 4096) % 4294967296 = (v + 1) * 4096 := by omega
  have entryEq := pte_of_table found
  simp only [deallocuvmLoop, if_apply, if_pos inside, bind_apply, get_apply,
    walked, ← entryEq, next]
  by_cases here : PteP (pte s.mem d v)
  · obtain ⟨managed, _⟩ := dir.pages v vLt here
    have notZero : pteAddr (pte s.mem d v) ≠ 0 := managed_ne_zero managed
    simp only [if_pos here, if_neg notZero, kfree_apply managed, storeEntry, modify_apply,
      freePage, found, Option.getD_some]
  · simp only [if_neg here, freePage]

/-- One iteration of the loop at a page that has no table. -/
theorem deallocuvmLoop_skip {boot : Boot} {s : Kernel} {d : Frame}
    {v oldsz : Nat} (vLt : v < userPages) (inside : v * 4096 < oldsz)
    (missing : tableOf s.mem d (v / 1024) = none) (fuel : Nat) :
    deallocuvmLoop boot d oldsz (fuel + 1) (v * 4096) s =
      deallocuvmLoop boot d oldsz fuel ((v / 1024 + 1) * 1024 * 4096) s := by
  have size := userPages_eq
  have walked : walkpgdir s.mem d (v * 4096) = none := by
    rw [walkpgdir_eq, pdx_page (by omega), missing]
    rfl
  have next : (((pdx (v * 4096) + 1) * 4194304 % 4294967296 + 4294963200) %
      4294967296 + 4096) % 4294967296 = (v / 1024 + 1) * 1024 * 4096 := by
    rw [pdx_page (by omega)]
    omega
  simp only [deallocuvmLoop, if_apply, if_pos inside, bind_apply, get_apply,
    walked, next]

/-- The loop frees every page of the range, whatever tables are missing. -/
theorem deallocuvmLoop_eq {boot : Boot} {s : Kernel} {d : Frame} {v oldsz fuel : Nat}
    (dir : Dir boot s.mem d) (bound : oldsz ≤ kernbase)
    (enough : pages oldsz - v < fuel) :
    deallocuvmLoop boot d oldsz fuel (v * 4096) s =
      .ok (⟨⟩, freeRange d v (pages oldsz - v) s) := by
  have size := userPages_eq
  have top : oldsz ≤ 2147483648 := bound
  induction fuel generalizing v s with
  | zero => omega
  | succ fuel ih =>
      unfold pages at *
      by_cases inside : v * 4096 < oldsz
      · have vLt : v < userPages := by omega
        cases found : tableOf s.mem d (v / 1024) with
        | some t =>
            rw [deallocuvmLoop_table dir vLt inside found,
              ih (freePage_dir dir vLt) (by omega), ← freeRange_succ,
              show (oldsz + 4095) / 4096 - (v + 1) + 1 =
                (oldsz + 4095) / 4096 - v by omega]
        | none =>
            rw [deallocuvmLoop_skip vLt inside found, ih dir (by omega)]
            -- The pages up to the next directory entry have nothing to free.
            have vacant (u : Nat) (low : v ≤ u) (high : u < (v / 1024 + 1) * 1024) :
                ¬ PteP (pte s.mem d u) := by
              have same : u / 1024 = v / 1024 := by omega
              simp [pte, same, found, PteP]
            by_cases beyond : (oldsz + 4095) / 4096 ≤ (v / 1024 + 1) * 1024
            · rw [freeRange_vacant fun u low high => vacant u low (by omega),
                show (oldsz + 4095) / 4096 - (v / 1024 + 1) * 1024 = 0 by omega]
              rfl
            · rw [show (oldsz + 4095) / 4096 - v = ((v / 1024 + 1) * 1024 - v) +
                  ((oldsz + 4095) / 4096 - (v / 1024 + 1) * 1024) by omega,
                freeRange_add,
                freeRange_vacant fun u low high => vacant u low (by omega),
                show v + ((v / 1024 + 1) * 1024 - v) = (v / 1024 + 1) * 1024 by omega]
      · simp only [deallocuvmLoop, if_apply, if_neg inside, pure_apply]
        rw [show (oldsz + 4095) / 4096 - v = 0 by omega]
        rfl

/-- `deallocuvm` looks at every page from `PGROUNDUP(newsz)` up to `oldsz`. -/
theorem deallocuvm_eq {boot : Boot} {s : Kernel} {d : Frame} {oldsz newsz : Nat}
    (dir : Dir boot s.mem d) (bound : oldsz ≤ kernbase) (less : newsz < oldsz) :
    deallocuvm boot d oldsz newsz s =
      .ok (newsz, freeRange d (pages newsz) (pages oldsz - pages newsz) s) := by
  have top : oldsz ≤ 2147483648 := bound
  have start : pgroundup newsz = pages newsz * 4096 := by
    unfold pgroundup pages
    omega
  have run : deallocuvmLoop boot d oldsz 1048577 (pages newsz * 4096) s = _ :=
    deallocuvmLoop_eq dir bound (by unfold pages; omega)
  simp only [deallocuvm, if_apply, bind_apply, pure_apply, start, run,
    if_neg (show ¬ newsz ≥ oldsz by omega)]

/-! ## Frames are conserved -/

theorem total_freePage {boot : Boot} {s : Kernel} {d : Frame} {v : Nat}
    {extra : Multiset Frame} (wf : Wf boot s d extra) (vLt : v < userPages) :
    total (freePage d s v) d = total s d := by
  by_cases here : PteP (pte s.mem d v)
  · obtain ⟨tables, entries⟩ := freePage_map wf.dir vLt
    have changed := owned_change_page vLt tables fun u _ other => by
      rw [entries, if_neg (fun h => other h.1)]
    have before : pageBag s.mem d v = {pteAddr (pte s.mem d v)} := if_pos here
    have cleared : pte (freePage d s v).mem d v = 0 := by
      rw [entries, if_pos ⟨rfl, here⟩]
    have after : pageBag (freePage d s v).mem d v = 0 := by
      unfold pageBag
      rw [cleared]
      rfl
    rw [before, after, add_zero] at changed
    have list : (freePage d s v).freelist = pteAddr (pte s.mem d v) :: s.freelist := by
      unfold freePage
      rw [if_pos here]
    unfold total
    rw [list, ← changed, ← Multiset.cons_coe, ← Multiset.singleton_add, add_assoc]
  · unfold freePage
    rw [if_neg here]

theorem wf_freeRange {boot : Boot} {s : Kernel} {d : Frame} {lo n : Nat}
    {extra : Multiset Frame} (wf : Wf boot s d extra) (bound : lo + n ≤ userPages) :
    total (freeRange d lo n s) d = total s d ∧
      Wf boot (freeRange d lo n s) d extra := by
  induction n generalizing lo s with
  | zero => exact ⟨rfl, wf⟩
  | succ n ih =>
      have kept := total_freePage wf (v := lo) (by omega)
      have wf' : Wf boot (freePage d s lo) d extra := wf.congr (by rw [kept])
      obtain ⟨same, wfEnd⟩ := ih wf' (by omega : lo + 1 + n ≤ userPages)
      rw [freeRange_succ]
      exact ⟨same.trans kept, wfEnd⟩

/-- What an operation on the user part of an address space leaves alone: it
loses no frame and no table, changes no page that was there before, and writes
to no frame outside the address space and the free list. -/
structure Kept (s s' : Kernel) (d : Frame) : Prop where
  total : total s' d = total s d
  tables : ∀ i t, tableOf s.mem d i = some t → tableOf s'.mem d i = some t
  contents : ∀ u < userPages, PteP (pte s.mem d u) →
    PteP (pte s'.mem d u) →
    s'.mem (pteAddr (pte s.mem d u)) = s.mem (pteAddr (pte s.mem d u))
  others : ∀ f, f ∉ Vm.total s d → s'.mem f = s.mem f

theorem freeRange_kept {boot : Boot} {s : Kernel} {d : Frame} {lo n : Nat}
    {extra : Multiset Frame} (wf : Wf boot s d extra) (bound : lo + n ≤ userPages) :
    Kept s (freeRange d lo n s) d := by
  have freed := freeRange_freed wf.dir bound
  have notFreed {u w : Nat} (uLt : u < userPages) (here : PteP (pte s.mem d u))
      (low : lo ≤ w) (high : w < lo + n) (other : w ≠ u) :
      frameAt s.mem d w ≠ some (pteAddr (pte s.mem d u)) := by
    unfold frameAt
    split
    · rename_i wHere
      intro same
      exact other (wf.page_unique (by omega) uLt wHere here (Option.some.inj same))
    · simp
  refine ⟨(wf_freeRange wf bound).1, fun i t found => (freed.tables i).trans found,
    fun u uLt here still => ?_, fun f outside => ?_⟩
  · refine freed.mem _ (wf.page_notTable uLt here).2 fun w low high => ?_
    refine notFreed uLt here low high ?_
    rintro rfl
    rw [freed.pte, if_pos ⟨low, high, here⟩] at still
    exact absurd still (by decide)
  · refine freed.mem f (fun i isTable => ?_) fun w low high isFrame => ?_
    · exact outside (Multiset.mem_add.mpr (.inl (mem_owned.mpr (.inr (.inl ⟨i, isTable⟩)))))
    · unfold frameAt at isFrame
      split at isFrame
      · rename_i here
        refine outside (Multiset.mem_add.mpr (.inl (mem_owned.mpr (.inr (.inr ?_)))))
        exact ⟨w, by omega, here, Option.some.inj isFrame⟩
      · cases isFrame

/-! ## `allocuvm` -/

/-- The state of the loop of `allocuvm` when it has mapped the pages from `lo`
up to `v`. -/
structure Growing (boot : Boot) (s s' : Kernel) (d : Frame) (extra : Multiset Frame)
    (lo v : Nat) : Prop where
  wf : Wf boot s' d extra
  kept : Kept s s' d
  outside : ∀ u, u < lo ∨ v ≤ u → pte s'.mem d u = pte s.mem d u
  mapped : ∀ u, lo ≤ u → u < v → ∃ f ∈ s.freelist,
    pte s'.mem d u = f * 4096 ||| pteWU ||| 1 ∧ s'.mem f = zeroPage
  free : s'.freelist <:+ s.freelist

theorem growing_start {boot : Boot} {s : Kernel} {d : Frame}
    {extra : Multiset Frame} (wf : Wf boot s d extra) (lo : Nat) :
    Growing boot s s d extra lo lo :=
  ⟨wf, ⟨rfl, fun _ _ found => found, fun _ _ _ _ => rfl, fun _ _ => rfl⟩,
    fun _ _ => rfl, fun u low high => by omega, List.suffix_refl _⟩

/-- A frame is taken from the free list and filled with zeros. -/
theorem wf_take {boot : Boot} {s : Kernel} {d f : Frame} {rest : List Frame}
    {extra : Multiset Frame} (wf : Wf boot s d extra)
    (frames : s.freelist = f :: rest) (page : Page) :
    (∀ i, tableOf (Function.update s.mem f page) d i = tableOf s.mem d i) ∧
      (∀ v, pte (Function.update s.mem f page) d v = pte s.mem d v) ∧
      total ⟨Function.update s.mem f page, rest⟩ d + {f} = total s d ∧
      Wf boot ⟨Function.update s.mem f page, rest⟩ d ({f} + extra) := by
  have isFree : f ∈ s.freelist := frames ▸ List.mem_cons_self
  obtain ⟨notDir, notTable⟩ := Wf.notTable_of_notOwned (wf.free_notOwned isFree)
  have tables (i : Nat) : tableOf (Function.update s.mem f page) d i = tableOf s.mem d i :=
    tableOf_update page i notDir
  have entries (v : Nat) : pte (Function.update s.mem f page) d v = pte s.mem d v :=
    pte_update page v notDir notTable
  have sum : total ⟨Function.update s.mem f page, rest⟩ d + {f} = total s d := by
    unfold total
    simp only
    rw [owned_congr tables fun v _ => entries v, frames, ← Multiset.cons_coe,
      ← Multiset.singleton_add, add_assoc, add_comm (rest : Multiset Frame)]
  exact ⟨tables, entries, sum, wf.congr (by rw [← add_assoc, sum])⟩

theorem mem_total {s : Kernel} {d f : Frame} :
    f ∈ total s d ↔ f ∈ owned s.mem d ∨ f ∈ s.freelist := by
  unfold total
  rw [Multiset.mem_add, Multiset.mem_coe]

/-- The frames of the user pages that were there before the loop. -/
theorem Growing.page_before {boot : Boot} {s s' : Kernel} {d : Frame}
    {extra : Multiset Frame} {lo v u : Nat} (growing : Growing boot s s' d extra lo v)
    (vacant : ∀ u, lo ≤ u → u < userPages → ¬ PteP (pte s.mem d u))
    (uLt : u < userPages) (here : PteP (pte s.mem d u)) :
    pte s'.mem d u = pte s.mem d u ∧ u < lo := by
  have low : u < lo := by
    by_contra beyond
    exact vacant u (by omega) uLt here
  exact ⟨growing.outside u (.inl low), low⟩

/-- The next page is mapped. -/
theorem Growing.step {boot : Boot} {s s' s'' : Kernel} {d f : Frame}
    {rest : List Frame} {extra : Multiset Frame} {lo v : Nat}
    (growing : Growing boot s s' d extra lo v)
    (vacant : ∀ u, lo ≤ u → u < userPages → ¬ PteP (pte s.mem d u))
    (low : lo ≤ v) (vLt : v < userPages) (frames : s'.freelist = f :: rest)
    (mapped : mapEntry ⟨Function.update s'.mem f zeroPage, rest⟩ d v
      (f * 4096 ||| pteWU ||| 1) = some s'') :
    Growing boot s s'' d extra lo (v + 1) := by
  have size := userPages_eq
  obtain ⟨tables, entries, sum, wfTaken⟩ := wf_take growing.wf frames zeroPage
  have isFree : f ∈ s'.freelist := frames ▸ List.mem_cons_self
  have bound : f < 131072 := managed_lt (growing.wf.managed_free isFree)
  have small : f * 4096 ||| pteWU ||| 1 < 4294967296 :=
    entry_lt_of_frame (bound.trans (by decide)) (by decide)
  have address : pteAddr (f * 4096 ||| pteWU ||| 1) = f :=
    pteAddr_entry f (by decide)
  have stillVacant : ¬ PteP (pte (Function.update s'.mem f zeroPage) d v) := by
    rw [entries, growing.outside v (.inr le_rfl)]
    exact vacant v low vLt
  have done := mapEntry_mapped wfTaken.separate (by omega) stillVacant
    (pteP_entry f (by decide)) small mapped
  have total' : total s'' d = total s' d := by
    rw [done.user vLt, address, ← sum]
  have pteEq (u : Nat) : pte s''.mem d u =
      if u = v then f * 4096 ||| pteWU ||| 1 else pte s'.mem d u := by
    rw [done.pte, entries]
  have notFreeRest {g : Frame} (isRest : g ∈ rest) : g ∈ s'.freelist :=
    frames ▸ List.mem_cons_of_mem f isRest
  -- A frame that is neither the directory, a table nor free keeps its bytes.
  have memEq (g : Frame) (notDir : g ≠ d)
      (notTable : ∀ i, tableOf s'.mem d i ≠ some g) (notFree : g ∉ s'.freelist) :
      s''.mem g = s'.mem g := by
    have notF : g ≠ f := fun same => notFree (same ▸ isFree)
    rw [done.mem g notDir (fun i => by rw [tables]; exact notTable i)
      (fun isRest => notFree (notFreeRest isRest))]
    exact Function.update_of_ne notF _ _
  refine ⟨growing.wf.congr (by rw [total']), ⟨?_, ?_, ?_, ?_⟩, ?_, ?_, ?_⟩
  · exact total'.trans growing.kept.total
  · intro i t found
    have found' := growing.kept.tables i t found
    by_cases same : i = v / 1024
    · subst same
      have kept := mapped
      unfold mapEntry withTable at kept
      simp only [tables, found'] at kept
      rw [Option.map_some, Option.some.injEq] at kept
      have notDir : d ≠ t := by
        rintro rfl
        exact growing.wf.notSelf _ found'
      rw [← kept]
      exact (tableOf_setEntry _ _ notDir).trans ((tables _).trans found')
    · rw [done.tables i same, tables, found']
  · intro u uLt here _
    obtain ⟨same, uLow⟩ := growing.page_before vacant uLt here
    have here' : PteP (pte s'.mem d u) := same ▸ here
    obtain ⟨notDir, notTable⟩ := growing.wf.page_notTable uLt here'
    rw [same] at notDir notTable
    have notFree : pteAddr (pte s.mem d u) ∉ s'.freelist := fun isListed =>
      growing.wf.free_notOwned isListed (mem_owned.mpr
        (.inr (.inr ⟨u, uLt, here', by rw [same]⟩)))
    rw [memEq _ notDir notTable notFree]
    exact growing.kept.contents u uLt here here'
  · intro g outside
    have notTotal : g ∉ total s' d := by
      rw [growing.kept.total]
      exact outside
    rw [mem_total, not_or] at notTotal
    obtain ⟨notDir, notTable⟩ := Wf.notTable_of_notOwned notTotal.1
    rw [memEq g (Ne.symm notDir) notTable notTotal.2]
    exact growing.kept.others g outside
  · intro u place
    rw [pteEq, if_neg (by omega)]
    exact growing.outside u (by omega)
  · intro u uLow uHigh
    by_cases isNew : u = v
    · subst isNew
      refine ⟨f, growing.free.subset isFree, by rw [pteEq, if_pos rfl], ?_⟩
      have notTotal := wfTaken.extra_notTotal
        (Multiset.mem_add.mpr (.inl (Multiset.mem_singleton_self f)))
      rw [mem_total, not_or] at notTotal
      obtain ⟨notDir, notTable⟩ := Wf.notTable_of_notOwned notTotal.1
      rw [done.mem f (Ne.symm notDir) notTable notTotal.2]
      exact Function.update_self _ _ _
    · obtain ⟨g, gFree, entry, zero⟩ := growing.mapped u uLow (by omega)
      refine ⟨g, gFree, by rw [pteEq, if_neg isNew, entry], ?_⟩
      have gBound : PteP (pte s'.mem d u) := entry ▸ pteP_entry g (by decide)
      have gAddress : pteAddr (pte s'.mem d u) = g :=
        entry ▸ pteAddr_entry g (by decide)
      obtain ⟨notDir, notTable⟩ := growing.wf.page_notTable (by omega) gBound
      rw [gAddress] at notDir notTable
      have notFree : g ∉ s'.freelist := fun isListed =>
        growing.wf.free_notOwned isListed (mem_owned.mpr
          (.inr (.inr ⟨u, by omega, gBound, gAddress⟩)))
      rw [memEq g notDir notTable notFree, zero]
  · have tail : rest <:+ s'.freelist := frames ▸ List.suffix_cons f rest
    exact done.free.trans (tail.trans growing.free)

/-- The user pages are as before, and no frame is lost. -/
structure Restored (s s' : Kernel) (d : Frame) : Prop where
  kept : Kept s s' d
  pages : ∀ u, present s'.mem d u = present s.mem d u

/-- What freeing the new pages brings back, from a state `q` that differs from
the loop's only in frames that were free. -/
structure Undone (s x : Kernel) (d : Frame) : Prop where
  tables : ∀ i t, tableOf s.mem d i = some t → tableOf x.mem d i = some t
  pages : ∀ u, present x.mem d u = present s.mem d u
  contents : ∀ u < userPages, PteP (pte s.mem d u) →
    x.mem (pteAddr (pte s.mem d u)) = s.mem (pteAddr (pte s.mem d u))
  others : ∀ f, f ∉ total s d → x.mem f = s.mem f

theorem Growing.undo {boot : Boot} {s s' q : Kernel} {d : Frame}
    {extra extra' : Multiset Frame} {lo v n : Nat}
    (growing : Growing boot s s' d extra lo v) (wf : Wf boot q d extra')
    (vacant : ∀ u, lo ≤ u → u < userPages → ¬ PteP (pte s.mem d u))
    (tables : ∀ i, tableOf q.mem d i = tableOf s'.mem d i)
    (entries : ∀ u, pte q.mem d u = pte s'.mem d u)
    (mem : ∀ g, g ∉ s'.freelist → q.mem g = s'.mem g)
    (fewer : ∀ g ∈ total q d, g ∈ total s' d) (within : v ≤ lo + n)
    (bound : lo + n ≤ userPages) : Undone s (freeRange d lo n q) d := by
  have freed := freeRange_freed wf.dir bound
  have kept := freeRange_kept wf bound
  refine ⟨fun i t found => ?_, fun u => ?_, fun u uLt here => ?_, fun f outside => ?_⟩
  · rw [freed.tables, tables]
    exact growing.kept.tables i t found
  · have after := freed.pte u
    rw [entries] at after
    unfold present
    by_cases inside : lo ≤ u ∧ u < lo + n
    · have before : ¬ PteP (pte s.mem d u) := vacant u inside.1 (by omega)
      have cleared : ¬ PteP (pte (freeRange d lo n q).mem d u) := by
        rw [after]
        split
        · decide
        · rename_i vacantHere
          exact fun here => vacantHere ⟨inside.1, inside.2, here⟩
      rw [if_neg before, if_neg cleared]
    · rw [if_neg (fun h => inside ⟨h.1, h.2.1⟩)] at after
      rw [after, growing.outside u (by omega)]
  · obtain ⟨same, low⟩ := growing.page_before vacant uLt here
    have here' : PteP (pte q.mem d u) := by
      rw [entries, same]
      exact here
    have still : PteP (pte (freeRange d lo n q).mem d u) := by
      rw [freed.pte, if_neg (fun h => by omega)]
      exact here'
    have page := kept.contents u uLt here' still
    rw [entries, same] at page
    have notFree : pteAddr (pte s.mem d u) ∉ s'.freelist := fun isListed =>
      growing.wf.free_notOwned isListed (mem_owned.mpr
        (.inr (.inr ⟨u, uLt, same ▸ here, by rw [same]⟩)))
    rw [page, mem _ notFree]
    exact growing.kept.contents u uLt here (same ▸ here)
  · have notTotal : f ∉ total s' d := by
      rw [growing.kept.total]
      exact outside
    rw [kept.others f (fun isTotal => notTotal (fewer f isTotal)),
      mem f (fun isListed => notTotal (mem_total.mpr (.inr isListed)))]
    exact growing.kept.others f outside

/-- The allocator is out of frames for a page. -/
theorem Growing.outOfPages {boot : Boot} {s s' : Kernel} {d : Frame}
    {extra : Multiset Frame} {lo v n : Nat} (growing : Growing boot s s' d extra lo v)
    (vacant : ∀ u, lo ≤ u → u < userPages → ¬ PteP (pte s.mem d u))
    (within : v ≤ lo + n) (bound : lo + n ≤ userPages) :
    Restored s (freeRange d lo n s') d := by
  have undone := growing.undo growing.wf vacant (fun _ => rfl) (fun _ => rfl)
    (fun _ _ => rfl) (fun _ isTotal => isTotal) within bound
  refine ⟨⟨?_, undone.tables, fun u uLt here _ => undone.contents u uLt here,
    undone.others⟩, undone.pages⟩
  exact (wf_freeRange growing.wf bound).1.trans growing.kept.total

/-- The allocator is out of frames for a table; the frame of the page goes back
to the free list. -/
theorem Growing.outOfTables {boot : Boot} {s s' : Kernel} {d f : Frame}
    {rest : List Frame} {extra : Multiset Frame} {lo v n : Nat}
    (growing : Growing boot s s' d extra lo v)
    (vacant : ∀ u, lo ≤ u → u < userPages → ¬ PteP (pte s.mem d u))
    (within : v ≤ lo + n) (bound : lo + n ≤ userPages)
    (frames : s'.freelist = f :: rest) (page : Page) :
    Restored s
      { mem := Function.update (freeRange d lo n
          ⟨Function.update s'.mem f zeroPage, rest⟩).mem f page
        freelist := f :: (freeRange d lo n
          ⟨Function.update s'.mem f zeroPage, rest⟩).freelist } d := by
  obtain ⟨tables, entries, sum, wfTaken⟩ := wf_take growing.wf frames zeroPage
  have isFree : f ∈ s'.freelist := frames ▸ List.mem_cons_self
  have untouched (g : Frame) (notFree : g ∉ s'.freelist) :
      Function.update s'.mem f zeroPage g = s'.mem g := by
    have notF : g ≠ f := fun same => notFree (same ▸ isFree)
    exact Function.update_of_ne notF _ _
  have undone := growing.undo wfTaken vacant tables entries untouched
    (fun g isTotal => by rw [← sum]; exact Multiset.mem_add.mpr (.inl isTotal))
    within bound
  obtain ⟨totalEq, wfEnd⟩ := wf_freeRange wfTaken bound
  generalize freeRange d lo n ⟨Function.update s'.mem f zeroPage, rest⟩ = x at *
  have notTotal := wfEnd.extra_notTotal
    (Multiset.mem_add.mpr (.inl (Multiset.mem_singleton_self f)))
  rw [mem_total, not_or] at notTotal
  obtain ⟨notDir, notTable⟩ := Wf.notTable_of_notOwned notTotal.1
  have tables' (i : Nat) : tableOf (Function.update x.mem f page) d i = tableOf x.mem d i :=
    tableOf_update page i notDir
  have entries' (u : Nat) : pte (Function.update x.mem f page) d u = pte x.mem d u :=
    pte_update page u notDir notTable
  have inTotal : f ∈ total s d := by
    rw [← growing.kept.total]
    exact mem_total.mpr (.inr isFree)
  refine ⟨⟨?_, fun i t found => (tables' i).trans (undone.tables i t found),
    fun u uLt here _ => ?_, fun g outside => ?_⟩, fun u => ?_⟩
  · rw [← growing.kept.total, ← sum, ← totalEq]
    unfold total
    simp only
    rw [owned_congr tables' fun u _ => entries' u, ← Multiset.cons_coe,
      ← Multiset.singleton_add, add_assoc, add_comm (x.freelist : Multiset Frame)]
  · obtain ⟨same, _⟩ := growing.page_before vacant uLt here
    have notF : pteAddr (pte s.mem d u) ≠ f := by
      intro isF
      refine growing.wf.free_notOwned isFree (mem_owned.mpr
        (.inr (.inr ⟨u, uLt, same ▸ here, ?_⟩)))
      rw [same, isF]
    show Function.update x.mem f page _ = _
    rw [Function.update_of_ne notF]
    exact undone.contents u uLt here
  · have notF : g ≠ f := fun same => outside (same ▸ inTotal)
    show Function.update x.mem f page g = _
    rw [Function.update_of_ne notF]
    exact undone.others g outside
  · rw [← undone.pages u]
    unfold present
    rw [entries']

theorem kalloc_nil {s : Kernel} (frames : s.freelist = []) :
    kalloc s = .ok (none, s) := by
  simp only [kalloc, bind_apply, get_apply, frames, pure_apply]

theorem kalloc_cons {s : Kernel} {f : Frame} {rest : List Frame}
    (frames : s.freelist = f :: rest) :
    kalloc s = .ok (some f, ⟨s.mem, rest⟩) := by
  simp only [kalloc, bind_apply, get_apply, frames, modify_apply, pure_apply]

/-- The frames that a page takes when the pages from `lo` to it are mapped: its own, and
one for its table when it is the first to need it. -/
def framesFor (mem : Memory) (d : Frame) (lo v : Nat) : Nat :=
  if tableOf mem d (v / 1024) = none ∧ (v = lo ∨ v % 1024 = 0) then 2 else 1

theorem framesFor_bounds (mem : Memory) (d : Frame) (lo v : Nat) :
    0 < framesFor mem d lo v ∧ framesFor mem d lo v ≤ 2 := by
  unfold framesFor
  split <;> decide

/-- The frames that the pages from `lo` up to `hi` take. -/
def growFrames (mem : Memory) (d : Frame) (lo hi : Nat) : Nat :=
  ((List.range' lo (hi - lo)).map (framesFor mem d lo)).sum

theorem growFrames_self (mem : Memory) (d : Frame) (lo : Nat) : growFrames mem d lo lo = 0 := by
  rw [growFrames, Nat.sub_self]
  rfl

theorem growFrames_succ (mem : Memory) (d : Frame) {lo v : Nat} (low : lo ≤ v) :
    growFrames mem d lo (v + 1) = growFrames mem d lo v + framesFor mem d lo v := by
  rw [growFrames, growFrames, Nat.sub_add_comm low, List.range'_concat]
  simp [Nat.add_sub_cancel' low]

theorem growFrames_le (mem : Memory) (d : Frame) (lo n : Nat) :
    growFrames mem d lo (lo + n) ≤ 2 * n := by
  induction n with
  | zero => exact (growFrames_self mem d lo).le
  | succ n ih =>
      have last := (framesFor_bounds mem d lo (lo + n)).2
      rw [← Nat.add_assoc, growFrames_succ mem d (Nat.le_add_right lo n)]
      omega

theorem growFrames_mono (mem : Memory) (d : Frame) {lo v hi : Nat} (low : lo ≤ v) (more : v ≤ hi) :
    growFrames mem d lo v ≤ growFrames mem d lo hi := by
  induction more with
  | refl => exact le_rfl
  | step more ih =>
      rw [growFrames_succ mem d (low.trans more)]
      exact ih.trans (Nat.le_add_right _ _)

/-- What mapping the pages from `lo` up to `v` has taken from the free list, and the tables
that it has made. -/
structure Spent (s s' : Kernel) (d : Frame) (lo v : Nat) : Prop where
  length : s'.freelist.length + growFrames s.mem d lo v = s.freelist.length
  tables : ∀ i, tableOf s'.mem d i = none ↔
    tableOf s.mem d i = none ∧ ∀ u, lo ≤ u → u < v → u / 1024 ≠ i

theorem spent_start (s : Kernel) (d : Frame) (lo : Nat) : Spent s s d lo lo where
  length := by rw [growFrames_self, Nat.add_zero]
  tables i := ⟨fun missing => ⟨missing, fun u low high => by omega⟩, fun both => both.1⟩

theorem Spent.missing_iff {s s' : Kernel} {d : Frame} {lo v : Nat} (spent : Spent s s' d lo v)
    (low : lo ≤ v) : tableOf s'.mem d (v / 1024) = none ↔
      tableOf s.mem d (v / 1024) = none ∧ (v = lo ∨ v % 1024 = 0) := by
  rw [spent.tables]
  refine and_congr_right fun _ => ⟨fun apart => ?_, fun first u above below => by omega⟩
  by_contra inside
  exact apart (v - 1) (by omega) (by omega) (by omega)

theorem Spent.step {s s' s'' : Kernel} {d f : Frame} {rest : List Frame} {lo v e : Nat}
    {page : Page} (spent : Spent s s' d lo v) (low : lo ≤ v) (frames : s'.freelist = f :: rest)
    (tables : ∀ i, tableOf (Function.update s'.mem f page) d i = tableOf s'.mem d i)
    (mapped : mapEntry ⟨Function.update s'.mem f page, rest⟩ d v e = some s'')
    (done : EntryMapped ⟨Function.update s'.mem f page, rest⟩ s'' d v e) :
    Spent s s'' d lo (v + 1) where
  length := by
    have taken := mapEntry_length mapped
    have before := spent.length
    have missing := spent.missing_iff low
    rw [frames, List.length_cons] at before
    rw [growFrames_succ _ _ low, framesFor]
    simp only [tables] at taken
    by_cases none : tableOf s'.mem d (v / 1024) = none
    · rw [if_pos (missing.mp none)]
      rw [none, if_neg (by simp)] at taken
      omega
    · rw [if_neg (none ∘ missing.mpr)]
      rw [if_pos (Option.isSome_iff_ne_none.mpr none)] at taken
      omega
  tables i := by
    by_cases same : i = v / 1024
    · subst same
      refine iff_of_false (Option.isSome_iff_ne_none.mp done.table) ?_
      exact fun both => both.2 v low (Nat.lt_succ_self v) rfl
    · rw [done.tables i same, tables, spent.tables]
      refine and_congr_right fun _ => ⟨fun apart u above below => ?_,
        fun apart u above below => apart u above (Nat.lt_succ_of_lt below)⟩
      rcases Nat.lt_succ_iff_lt_or_eq.mp below with before | rfl
      · exact apart u above before
      · exact Ne.symm same

/-- The loop of `allocuvm` maps every page of the range, if there are frames for it, or
none. -/
theorem allocuvmLoop_spec {boot : Boot} {s s' : Kernel} {d : Frame}
    {extra : Multiset Frame} {oldsz newsz v fuel : Nat}
    (growing : Growing boot s s' d extra (pages oldsz) v) (spent : Spent s s' d (pages oldsz) v)
    (vacant : ∀ u, pages oldsz ≤ u → u < userPages → ¬ PteP (pte s.mem d u))
    (low : pages oldsz ≤ v) (within : v ≤ max (pages oldsz) (pages newsz))
    (bound : newsz < kernbase) (enough : pages newsz - v < fuel) :
    (growFrames s.mem d (pages oldsz) (max (pages oldsz) (pages newsz)) ≤
        s.freelist.length ∧
      ∃ s'', allocuvmLoop boot d oldsz newsz fuel (v * 4096) s' = .ok (newsz, s'') ∧
        Growing boot s s'' d extra (pages oldsz) (max (pages oldsz) (pages newsz))) ∨
      s.freelist.length <
        growFrames s.mem d (pages oldsz) (max (pages oldsz) (pages newsz)) ∧
        ∃ s'', allocuvmLoop boot d oldsz newsz fuel (v * 4096) s' = .ok (0, s'') ∧
          Restored s s'' d := by
  have size := userPages_eq
  have top : newsz < 2147483648 := bound
  have length := spent.length
  induction fuel generalizing v s' with
  | zero => omega
  | succ fuel ih =>
      by_cases inside : v * 4096 < newsz
      · have vLt : v < pages newsz := by
          unfold pages
          omega
        have less : oldsz < newsz := by
          unfold pages at low
          omega
        have vUser : v < userPages := by
          unfold pages at vLt
          omega
        have last : pages oldsz + (pages newsz - pages oldsz) = pages newsz := by
          omega
        have lastBound : pages oldsz + (pages newsz - pages oldsz) ≤ userPages := by
          rw [last]
          unfold pages
          omega
        have next : (v * 4096 + 4096) % 4294967296 = (v + 1) * 4096 := by omega
        have needed : growFrames s.mem d (pages oldsz) (v + 1) ≤
            growFrames s.mem d (pages oldsz) (max (pages oldsz) (pages newsz)) :=
          growFrames_mono s.mem d (Nat.le_succ_of_le low) (by omega)
        rw [growFrames_succ s.mem d low] at needed
        cases frames : s'.freelist with
        | nil =>
            have one := (framesFor_bounds s.mem d (pages oldsz) v).1
            rw [frames, List.length_nil] at length
            right
            refine ⟨by omega, _, ?_, growing.outOfPages vacant (by omega) lastBound⟩
            simp only [allocuvmLoop, if_apply, if_pos inside, bind_apply,
              kalloc_nil frames, pure_apply,
              deallocuvm_eq growing.wf.dir bound.le less]
        | cons f rest =>
            obtain ⟨tables, entries, _, wfTaken⟩ := wf_take growing.wf frames zeroPage
            have isFree : f ∈ s'.freelist := frames ▸ List.mem_cons_self
            have managed := growing.wf.managed_free isFree
            have stillVacant : ¬ PteP (pte (Function.update s'.mem f zeroPage) d v) := by
              rw [entries, growing.outside v (.inr le_rfl)]
              exact vacant v low vUser
            have mapping := mappages_page wfTaken (by omega : v < 1048576) pteWU
              (f * 4096)
            rw [if_neg stillVacant] at mapping
            cases mapped : mapEntry ⟨Function.update s'.mem f zeroPage, rest⟩ d v
                (f * 4096 ||| pteWU ||| 1) with
            | none =>
                obtain ⟨missing, rfl⟩ := mapEntry_none mapped
                have two : framesFor s.mem d (pages oldsz) v = 2 :=
                  if_pos ((spent.missing_iff low).mp ((tables _).symm.trans missing))
                rw [frames, List.length_singleton] at length
                right
                refine ⟨by omega, _, ?_, growing.outOfTables vacant (by omega) lastBound
                  frames (freedPage (freeRange d (pages oldsz)
                    (pages newsz - pages oldsz)
                    ⟨Function.update s'.mem f zeroPage, []⟩).freelist.head?)⟩
                simp only [mapped] at mapping
                simp only [allocuvmLoop, if_apply, if_pos inside, bind_apply,
                  kalloc_cons frames, storePage, modify_apply, mapping,
                  deallocuvm_eq wfTaken.dir bound.le less, pure_apply,
                  kfree_apply managed, if_pos (show (-1 : Int) < 0 by decide)]
            | some s'' =>
                simp only [mapped] at mapping
                have bound : f < 131072 := managed_lt managed
                have done := mapEntry_mapped wfTaken.separate (by omega) stillVacant
                  (pteP_entry f (by decide))
                  (entry_lt_of_frame (bound.trans (by decide)) (by decide)) mapped
                have spent' := spent.step low frames tables mapped done
                have step := growing.step vacant low vUser frames mapped
                have run := ih step spent' (by omega) (by omega) (by omega) spent'.length
                have unfolded : allocuvmLoop boot d oldsz newsz (fuel + 1)
                    (v * 4096) s' =
                    allocuvmLoop boot d oldsz newsz fuel ((v + 1) * 4096) s'' := by
                  simp only [allocuvmLoop, if_apply, if_pos inside, bind_apply,
                    kalloc_cons frames, storePage, modify_apply, mapping, next,
                    if_neg (show ¬ (0 : Int) < 0 by decide)]
                rw [unfolded]
                exact run
      · left
        have done : v = max (pages oldsz) (pages newsz) := by
          unfold pages at *
          omega
        refine ⟨?_, s', ?_, done ▸ growing⟩
        · rw [← done]
          exact length ▸ Nat.le_add_left _ _
        · simp only [allocuvmLoop, if_apply, if_neg inside, pure_apply]

/-- `allocuvm` maps every page of the range, if there are frames for it, or none. -/
theorem allocuvm_spec {boot : Boot} {s : Kernel} {d : Frame}
    {extra : Multiset Frame} {oldsz newsz : Nat} (wf : Wf boot s d extra)
    (vacant : ∀ u, pages oldsz ≤ u → u < userPages → ¬ PteP (pte s.mem d u))
    (order : oldsz ≤ newsz) (bound : newsz < kernbase) :
    (growFrames s.mem d (pages oldsz) (pages newsz) ≤ s.freelist.length ∧
      ∃ s', allocuvm boot d oldsz newsz s = .ok (newsz, s') ∧
        Growing boot s s' d extra (pages oldsz) (pages newsz)) ∨
      s.freelist.length < growFrames s.mem d (pages oldsz) (pages newsz) ∧
        ∃ s', allocuvm boot d oldsz newsz s = .ok (0, s') ∧ Restored s s' d := by
  have top : newsz < 2147483648 := bound
  have start : pgroundup oldsz = pages oldsz * 4096 := by
    unfold pgroundup pages
    omega
  have larger : max (pages oldsz) (pages newsz) = pages newsz := by
    unfold pages
    omega
  have enough : pages newsz - pages oldsz < 1048577 := by
    unfold pages
    omega
  have run := allocuvmLoop_spec (growing_start wf (pages oldsz)) (spent_start s d _) vacant le_rfl
    (le_max_left _ _) bound enough
  have unfolded : allocuvm boot d oldsz newsz s =
      allocuvmLoop boot d oldsz newsz 1048577 (pages oldsz * 4096) s := by
    simp only [allocuvm, if_apply, pure_apply, start,
      if_neg (show ¬ newsz ≥ kernbase by omega),
      if_neg (show ¬ newsz < oldsz by omega)]
  rw [larger] at run
  rw [unfolded]
  exact run

end Xv6.Vm
