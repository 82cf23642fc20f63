import Xv6.AddressSpace

/-!
# Mapping pages

The allocator and the functions that change one entry: what `kalloc`, `kfree`,
`walkpgdir` and one iteration of `mappages` do to the map of an address space
and to the frames that it and the free list hold together.
-/

namespace Xv6.Vm

open ByteFields StateTriples

/-- The frames of an address space and of the free list. -/
def total (s : Kernel) (d : Frame) : Multiset Frame :=
  owned s.mem d + (s.freelist : Multiset Frame)

/-- No frame has two uses: those of the address space, the free list and
`extra`, the frames that the kernel holds besides.  All of them are managed. -/
structure Wf (boot : Boot) (s : Kernel) (d : Frame) (extra : Multiset Frame) :
    Prop where
  nodup : (total s d + extra).Nodup
  managed : ∀ f ∈ total s d + extra, Managed boot f

namespace Wf

variable {boot : Boot} {s : Kernel} {d : Frame} {extra : Multiset Frame}

theorem total_nodup (wf : Wf boot s d extra) : (total s d).Nodup :=
  (Multiset.nodup_add.mp wf.nodup).1

theorem owned_nodup (wf : Wf boot s d extra) : (owned s.mem d).Nodup :=
  (Multiset.nodup_add.mp wf.total_nodup).1

theorem free_notOwned (wf : Wf boot s d extra) {f : Frame}
    (isFree : f ∈ s.freelist) : f ∉ owned s.mem d := fun isOwned =>
  Multiset.disjoint_left.mp (Multiset.nodup_add.mp wf.total_nodup).2.2 isOwned
    (Multiset.mem_coe.mpr isFree)

theorem extra_notTotal (wf : Wf boot s d extra) {f : Frame} (held : f ∈ extra) :
    f ∉ total s d := fun isTotal =>
  Multiset.disjoint_left.mp (Multiset.nodup_add.mp wf.nodup).2.2 isTotal held

theorem managed_free (wf : Wf boot s d extra) {f : Frame}
    (isFree : f ∈ s.freelist) : Managed boot f :=
  wf.managed f (Multiset.mem_add.mpr (.inl (Multiset.mem_add.mpr
    (.inr (Multiset.mem_coe.mpr isFree)))))

theorem managed_owned (wf : Wf boot s d extra) {f : Frame}
    (isOwned : f ∈ owned s.mem d) : Managed boot f :=
  wf.managed f (Multiset.mem_add.mpr (.inl (Multiset.mem_add.mpr (.inl isOwned))))

/-- The directory and its tables are apart. -/
theorem notSelf (wf : Wf boot s d extra) (i : Nat) : tableOf s.mem d i ≠ some d := by
  intro found
  have nodup := wf.owned_nodup
  unfold owned at nodup
  have apart := (Multiset.nodup_add.mp (Multiset.nodup_add.mp nodup).1).2.2
  exact Multiset.disjoint_left.mp apart (Multiset.mem_singleton_self d)
    (mem_tableFrames.mpr ⟨i, found⟩)

theorem distinct (wf : Wf boot s d extra) (i j : Nat) (t : Frame)
    (first : tableOf s.mem d i = some t) (second : tableOf s.mem d j = some t) :
    i = j := by
  have nodup := wf.owned_nodup
  unfold owned at nodup
  have tables := (Multiset.nodup_add.mp (Multiset.nodup_add.mp nodup).1).2.1
  unfold tableFrames at tables
  refine IndexedBags.eq_of_nodup_sum tables
    (Finset.mem_range.mpr (dirEntries_eq ▸ lt_of_tableOf first))
    (Finset.mem_range.mpr (dirEntries_eq ▸ lt_of_tableOf second)) (a := t) ?_ ?_
  · simp [tableBag, first]
  · simp [tableBag, second]

/-- Different present user pages have different frames. -/
theorem page_unique (wf : Wf boot s d extra) {u v : Nat} (uLt : u < userPages)
    (vLt : v < userPages) (uPresent : PteP (pte s.mem d u))
    (vPresent : PteP (pte s.mem d v))
    (same : pteAddr (pte s.mem d u) = pteAddr (pte s.mem d v)) : u = v := by
  have nodup := wf.owned_nodup
  unfold owned at nodup
  have pages := (Multiset.nodup_add.mp nodup).2.1
  unfold pageFrames at pages
  refine IndexedBags.eq_of_nodup_sum pages (Finset.mem_range.mpr uLt)
    (Finset.mem_range.mpr vLt) (a := pteAddr (pte s.mem d u)) ?_ ?_
  · simp [pageBag, uPresent]
  · simp [pageBag, vPresent, same]

theorem page_notTable (wf : Wf boot s d extra) {v : Nat} (vLt : v < userPages)
    (present : PteP (pte s.mem d v)) :
    pteAddr (pte s.mem d v) ≠ d ∧
      ∀ i, tableOf s.mem d i ≠ some (pteAddr (pte s.mem d v)) := by
  have nodup := wf.owned_nodup
  unfold owned at nodup
  have apart := (Multiset.nodup_add.mp nodup).2.2
  have isPage : pteAddr (pte s.mem d v) ∈ pageFrames s.mem d :=
    mem_pageFrames.mpr ⟨v, vLt, present, rfl⟩
  constructor
  · intro isDir
    refine Multiset.disjoint_left.mp apart ?_ isPage
    exact Multiset.mem_add.mpr (.inl (Multiset.mem_singleton.mpr isDir))
  · intro i isTable
    refine Multiset.disjoint_left.mp apart ?_ isPage
    exact Multiset.mem_add.mpr (.inr (mem_tableFrames.mpr ⟨i, isTable⟩))

theorem dir (wf : Wf boot s d extra) : Dir boot s.mem d where
  dir := wf.notSelf
  tables := wf.distinct
  pages v vLt present :=
    ⟨wf.managed_owned (mem_owned.mpr (.inr (.inr ⟨v, vLt, present, rfl⟩))),
      wf.page_notTable vLt present⟩

/-- A frame that is not owned is neither the directory nor a table. -/
theorem notTable_of_notOwned {mem : Memory} {f : Frame} (outside : f ∉ owned mem d) :
    d ≠ f ∧ ∀ i, tableOf mem d i ≠ some f :=
  ⟨fun same => outside (mem_owned.mpr (.inl same.symm)),
    fun i found => outside (mem_owned.mpr (.inr (.inl ⟨i, found⟩)))⟩

/-- The same frames in another order of use. -/
theorem congr {s' : Kernel} {extra' : Multiset Frame} (wf : Wf boot s d extra)
    (same : total s' d + extra' = total s d + extra) : Wf boot s' d extra' :=
  ⟨same ▸ wf.nodup, same ▸ wf.managed⟩

end Wf

/-! ## One table and one entry -/

/-- The memory after `walkpgdir` has put a new table into the directory. -/
def newTable (mem : Memory) (d : Frame) (i : Nat) (t : Frame) : Memory :=
  setEntry (Function.update mem t zeroPage) d i (t * 4096 ||| 1 ||| 2 ||| 4)

/-- The table at an index of the directory, after `walkpgdir` has allocated it
where it was missing. -/
def withTable (s : Kernel) (d : Frame) (i : Nat) : Option (Frame × Kernel) :=
  match tableOf s.mem d i with
  | some t => some (t, s)
  | none =>
      match s.freelist with
      | [] => none
      | t :: rest => some (t, ⟨newTable s.mem d i t, rest⟩)

theorem walkpgdirAlloc_eq (s : Kernel) (d : Frame) (va : Nat) :
    walkpgdirAlloc d va s = .ok (match withTable s d (pdx va) with
      | some (t, s') => (some (t, ptx va), s')
      | none => (none, s)) := by
  by_cases present : PteP (entry s.mem d (pdx va))
  · have table : tableOf s.mem d (pdx va) =
        some (pteAddr (entry s.mem d (pdx va))) := by
      simp [tableOf, present]
    simp only [withTable, table, walkpgdirAlloc, bind_apply, get_apply,
      if_apply, pure_apply, if_pos present]
  · have table : tableOf s.mem d (pdx va) = none := by simp [tableOf, present]
    simp only [withTable, table, walkpgdirAlloc, kalloc, bind_apply, get_apply,
      if_apply, if_neg present]
    cases frames : s.freelist with
    | nil => simp only [pure_apply]
    | cons t rest =>
        simp only [storePage, storeEntry, newTable, bind_apply, modify_apply,
          pure_apply]

/-- The directory, its tables and the free frames are different frames. -/
structure Separate (s : Kernel) (d : Frame) : Prop where
  dir : ∀ i, tableOf s.mem d i ≠ some d
  tables : ∀ i j t, tableOf s.mem d i = some t → tableOf s.mem d j = some t → i = j
  nodup : s.freelist.Nodup
  free : ∀ f ∈ s.freelist, f < 1048576 ∧ d ≠ f ∧ ∀ i, tableOf s.mem d i ≠ some f

theorem Wf.separate {boot : Boot} {s : Kernel} {d : Frame} {extra : Multiset Frame}
    (wf : Wf boot s d extra) : Separate s d where
  dir := wf.notSelf
  tables := wf.distinct
  nodup := Multiset.coe_nodup.mp (Multiset.nodup_add.mp wf.total_nodup).2.1
  free f isFree := ⟨(managed_lt (wf.managed_free isFree)).trans (by decide),
    Wf.notTable_of_notOwned (wf.free_notOwned isFree)⟩

/-- What getting a table leaves as it was. -/
structure TableReady (s s' : Kernel) (d : Frame) (i : Nat) (t : Frame) : Prop where
  found : tableOf s'.mem d i = some t
  tables : ∀ k, k ≠ i → tableOf s'.mem d k = tableOf s.mem d k
  total : total s' d = total s d
  pte : ∀ v, pte s'.mem d v = pte s.mem d v
  mem : ∀ f, f ≠ d → f ∉ s.freelist → s'.mem f = s.mem f
  free : s'.freelist <:+ s.freelist

theorem withTable_ready {s s' : Kernel} {d t : Frame} {i : Nat} (separate : Separate s d)
    (iLt : i < 1024) (got : withTable s d i = some (t, s')) : TableReady s s' d i t := by
  unfold withTable at got
  split at got
  · rename_i u table
    cases got
    exact ⟨table, fun _ _ => rfl, rfl, fun _ => rfl, fun _ _ _ => rfl,
      List.suffix_refl _⟩
  · rename_i missing
    split at got
    · cases got
    · rename_i u rest frames
      cases got
      have isFree : t ∈ s.freelist := frames ▸ List.mem_cons_self
      obtain ⟨bound, notDir, notTable⟩ := separate.free t isFree
      have present : PteP (t * 4096 ||| 1 ||| 2 ||| 4) :=
        table_entry t ▸ pteP_entry t (by decide)
      have address : pteAddr (t * 4096 ||| 1 ||| 2 ||| 4) = t :=
        table_entry t ▸ pteAddr_entry t (by decide)
      have small : t * 4096 ||| 1 ||| 2 ||| 4 < 4294967296 :=
        table_entry t ▸ entry_lt_of_frame bound (by decide)
      obtain ⟨tables, pages⟩ := install missing iLt notDir separate.dir notTable
        present address small
      refine ⟨?_, fun k other => ?_, ?_, pages, fun f notD notFree => ?_, ?_⟩
      · exact (tables i).trans (if_pos rfl)
      · exact (tables k).trans (if_neg other)
      · unfold Vm.total
        simp only [newTable]
        rw [owned_add_table iLt missing tables fun v _ => pages v, frames,
          add_assoc]
        rfl
      · have notT : f ≠ t := fun same => notFree (same ▸ isFree)
        show setEntry _ _ _ _ f = s.mem f
        unfold setEntry
        rw [Function.update_of_ne notD, Function.update_of_ne notT]
      · exact frames ▸ List.suffix_cons t rest

/-- A new table is one of the free frames. -/
theorem withTable_separate {s s' : Kernel} {d t : Frame} {i : Nat} (separate : Separate s d)
    (iLt : i < 1024) (got : withTable s d i = some (t, s')) :
    Separate s' d ∧ ∀ k u, tableOf s.mem d k = some u → tableOf s'.mem d k = some u := by
  have ready := withTable_ready separate iLt got
  unfold withTable at got
  split at got
  · cases got
    exact ⟨separate, fun _ _ found => found⟩
  · rename_i missing
    split at got
    · cases got
    · rename_i u rest frames
      cases got
      have nodup := separate.nodup
      rw [frames, List.nodup_cons] at nodup
      have first := separate.free t (frames ▸ List.mem_cons_self)
      have tables (k : Nat) : tableOf (newTable s.mem d i t) d k =
          if k = i then some t else tableOf s.mem d k := by
        by_cases same : k = i
        · rw [if_pos same, same]
          exact ready.found
        · rw [if_neg same]
          exact ready.tables k same
      refine ⟨⟨fun k => ?_, fun k l w here there => ?_, nodup.2, fun f isFree => ?_⟩,
        fun k w found => ?_⟩
      · rw [tables]
        split
        · exact fun same => first.2.1 (Option.some.inj same).symm
        · exact separate.dir k
      · rw [tables] at here there
        split at here
        · split at there
          · omega
          · cases here
            exact absurd there (first.2.2 l)
        · split at there
          · cases there
            exact absurd here (first.2.2 k)
          · exact separate.tables k l w here there
      · obtain ⟨bound, notDir, notTable⟩ := separate.free f (frames ▸ List.mem_cons_of_mem t isFree)
        refine ⟨bound, notDir, fun k => ?_⟩
        rw [tables]
        split
        · rintro same
          exact nodup.1 (Option.some.inj same ▸ isFree)
        · exact notTable k
      · rw [tables, if_neg]
        · exact found
        · rintro rfl
          rw [missing] at found
          cases found

/-- The entry of a page is stored, in a new table if need be. -/
def mapEntry (s : Kernel) (d : Frame) (v e : Nat) : Option Kernel :=
  (withTable s d (v / 1024)).map fun (t, s') =>
    { s' with mem := setEntry s'.mem t (v % 1024) e }

/-- What storing the entry of a page does. -/
structure EntryMapped (s s' : Kernel) (d : Frame) (v e : Nat) : Prop where
  pte : ∀ u, pte s'.mem d u = if u = v then e else pte s.mem d u
  table : (tableOf s'.mem d (v / 1024)).isSome
  tables : ∀ k, k ≠ v / 1024 → tableOf s'.mem d k = tableOf s.mem d k
  user : v < userPages → total s' d = total s d + {pteAddr e}
  kernel : userPages ≤ v → total s' d = total s d
  mem : ∀ f, f ≠ d → (∀ i, tableOf s.mem d i ≠ some f) → f ∉ s.freelist →
    s'.mem f = s.mem f
  free : s'.freelist <:+ s.freelist

theorem mapEntry_none {s : Kernel} {d : Frame} {v e : Nat}
    (failed : mapEntry s d v e = none) :
    tableOf s.mem d (v / 1024) = none ∧ s.freelist = [] := by
  have noTable := Option.map_eq_none_iff.mp failed
  unfold withTable at noTable
  split at noTable
  · cases noTable
  · rename_i missing
    split at noTable
    · rename_i frames
      exact ⟨missing, frames⟩
    · cases noTable

/-- What `mapEntry` takes from the free list. -/
theorem mapEntry_length {s s' : Kernel} {d : Frame} {v e : Nat}
    (mapped : mapEntry s d v e = some s') :
    s.freelist.length =
      s'.freelist.length + if (tableOf s.mem d (v / 1024)).isSome then 0 else 1 := by
  obtain ⟨⟨t, s1⟩, got, rfl⟩ := Option.map_eq_some_iff.mp mapped
  unfold withTable at got
  split at got
  · rename_i u found
    cases got
    simp [found]
  · rename_i missing
    split at got
    · cases got
    · rename_i u rest frames
      cases got
      simp [missing, frames]

theorem mapEntry_mapped {s s' : Kernel} {d : Frame} {v e : Nat} (separate : Separate s d)
    (vLt : v < 1048576)
    (vacant : ¬ PteP (pte s.mem d v)) (present : PteP e) (small : e < 4294967296)
    (mapped : mapEntry s d v e = some s') : EntryMapped s s' d v e := by
  obtain ⟨⟨t, s1⟩, got, rfl⟩ := Option.map_eq_some_iff.mp mapped
  have ready := withTable_ready separate (by omega) got
  have separate1 := (withTable_separate separate (by omega) got).1
  have notDir : d ≠ t := by
    rintro rfl
    exact separate1.dir _ ready.found
  have entries (u : Nat) : pte (setEntry s1.mem t (v % 1024) e) d u =
      if u = v then e else pte s.mem d u := by
    rw [pte_setEntry e u separate1.dir separate1.tables ready.found (by omega),
      Nat.mod_eq_of_lt small, ready.pte, show v / 1024 * 1024 + v % 1024 = v by omega]
  have tables (k : Nat) : tableOf (setEntry s1.mem t (v % 1024) e) d k =
      tableOf s1.mem d k := tableOf_setEntry e k notDir
  refine ⟨entries, ?_, fun k other => ?_, fun isUser => ?_, fun isKernel => ?_,
    fun f notD notTable notFree => ?_, ready.free⟩
  · simp only [tables, ready.found, Option.isSome_some]
  · exact (tables k).trans (ready.tables k other)
  · have pages (u : Nat) (_ : u < userPages) (other : u ≠ v) :
        pte (setEntry s1.mem t (v % 1024) e) d u = pte s1.mem d u := by
      rw [entries, if_neg other, ready.pte]
    have changed := owned_change_page isUser tables pages
    have before : pageBag s1.mem d v = 0 := by
      simp [pageBag, ready.pte, vacant]
    have after : pageBag (setEntry s1.mem t (v % 1024) e) d v = {pteAddr e} := by
      simp [pageBag, entries, present]
    rw [before, after, add_zero] at changed
    rw [← ready.total]
    unfold Vm.total
    simp only
    rw [changed, add_right_comm]
  · rw [← ready.total]
    unfold Vm.total
    simp only
    rw [owned_congr tables fun u uLt => ?_]
    rw [entries, if_neg (by omega), ready.pte]
  · have notT : f ≠ t := by
      rintro rfl
      by_cases same : tableOf s.mem d (v / 1024) = some f
      · exact notTable _ same
      · unfold withTable at got
        split at got
        · rename_i u table
          cases got
          exact same table
        · split at got
          · cases got
          · rename_i u rest frames
            cases got
            exact notFree (frames ▸ List.mem_cons_self)
    show setEntry _ _ _ _ f = _
    unfold setEntry
    rw [Function.update_of_ne notT]
    exact ready.mem f notD notFree

theorem mapEntry_separate {s s' : Kernel} {d : Frame} {v e : Nat} (separate : Separate s d)
    (vLt : v < 1048576) (mapped : mapEntry s d v e = some s') :
    Separate s' d ∧ ∀ k u, tableOf s.mem d k = some u → tableOf s'.mem d k = some u := by
  obtain ⟨⟨t, s1⟩, got, rfl⟩ := Option.map_eq_some_iff.mp mapped
  have ready := withTable_ready separate (by omega) got
  obtain ⟨separate1, kept⟩ := withTable_separate separate (by omega) got
  have notDir : d ≠ t := by
    rintro rfl
    exact separate1.dir _ ready.found
  have tables (k : Nat) : tableOf (setEntry s1.mem t (v % 1024) e) d k =
      tableOf s1.mem d k := tableOf_setEntry e k notDir
  refine ⟨⟨fun i => ?_, fun i j u here there => ?_, separate1.nodup, fun f isFree => ?_⟩,
    fun k u found => ?_⟩
  · rw [tables]
    exact separate1.dir i
  · rw [tables] at here there
    exact separate1.tables i j u here there
  · obtain ⟨bound, notDir', notTable⟩ := separate1.free f isFree
    refine ⟨bound, notDir', fun i => ?_⟩
    rw [tables]
    exact notTable i
  · rw [tables]
    exact kept k u found

theorem pdx_page {v : Nat} (vLt : v < 1048576) : pdx (v * 4096) = v / 1024 := by
  unfold pdx
  omega

theorem ptx_page (v : Nat) : ptx (v * 4096) = v % 1024 := by
  unfold ptx
  omega

theorem pte_of_table {mem : Memory} {d t : Frame} {v : Nat}
    (found : tableOf mem d (v / 1024) = some t) :
    pte mem d v = entry mem t (v % 1024) := by
  simp only [pte, found]

/-- One iteration of the loop of `mappages`. -/
theorem mappagesLoop_succ {s : Kernel} {d : Frame} {v : Nat} (separate : Separate s d)
    (vLt : v < 1048576)
    (perm last fuel pa : Nat) :
    mappagesLoop d perm last (fuel + 1) (v * 4096) pa s =
      if PteP (pte s.mem d v) then .error .remap
      else match mapEntry s d v (pa ||| perm ||| 1) with
        | none => .ok (-1, s)
        | some s' =>
            if v * 4096 = last then .ok (0, s')
            else mappagesLoop d perm last fuel ((v * 4096 + 4096) % 4294967296)
              ((pa + 4096) % 4294967296) s' := by
  have walked := walkpgdirAlloc_eq s d (v * 4096)
  rw [pdx_page vLt, ptx_page] at walked
  cases got : withTable s d (v / 1024) with
  | none =>
      have vacant : ¬ PteP (pte s.mem d v) := by
        unfold withTable at got
        split at got
        · cases got
        · rename_i missing
          simp [pte, missing, PteP]
      rw [if_neg vacant]
      simp only [got] at walked
      simp only [mapEntry, got, Option.map_none, mappagesLoop, bind_apply, walked,
        pure_apply]
  | some pair =>
      obtain ⟨t, s1⟩ := pair
      have ready := withTable_ready separate (by omega) got
      have entryEq : entry s1.mem t (v % 1024) = pte s.mem d v := by
        rw [← pte_of_table ready.found, ready.pte]
      simp only [got] at walked
      simp only [mapEntry, got, Option.map_some, mappagesLoop, bind_apply, walked,
        get_apply, entryEq, if_apply, throw_apply, storeEntry, modify_apply,
        pure_apply]

/-- `mappages` for one page. -/
theorem mappages_page {boot : Boot} {s : Kernel} {d : Frame} {v : Nat}
    {extra : Multiset Frame} (wf : Wf boot s d extra) (vLt : v < 1048576)
    (perm pa : Nat) :
    mappages d (v * 4096) 4096 pa perm s =
      if PteP (pte s.mem d v) then .error .remap
      else match mapEntry s d v (pa ||| perm ||| 1) with
        | none => .ok (-1, s)
        | some s' => .ok (0, s') := by
  have first : pgrounddown (v * 4096) = v * 4096 := by
    unfold pgrounddown
    omega
  have last : pgrounddown ((v * 4096 + 4096 + 4294967295) % 4294967296) =
      v * 4096 := by
    unfold pgrounddown
    omega
  unfold mappages
  rw [first, last, mappagesLoop_succ wf.separate vLt]
  simp only [if_true]

end Xv6.Vm
