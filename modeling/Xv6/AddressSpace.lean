import Xv6.IndexedBags
import Xv6.VmModel

/-!
# Address spaces and the frames they own

A directory with its tables is a map from page numbers to entries.  The frames
of an address space are its directory, its tables and the frames of its present
user pages.  Where these and the free list share no frame, a store to one of
them changes one entry of the map and nothing else.
-/

namespace Xv6.Vm

open ByteFields

/-- The number of pages below `KERNBASE`. -/
@[irreducible]
def userPages : Nat := 524288

/-- The number of entries of a directory. -/
@[irreducible]
def dirEntries : Nat := 1024

/-- The table at an index of the directory. -/
def tableOf (mem : Memory) (d : Frame) (i : Nat) : Option Frame :=
  if PteP (entry mem d i) then some (pteAddr (entry mem d i)) else none

/-- The entry of a page; it is zero where there is no table. -/
def pte (mem : Memory) (d : Frame) (v : Nat) : Nat :=
  match tableOf mem d (v / 1024) with
  | some t => entry mem t (v % 1024)
  | none => 0

/-- The directory and its tables are different frames, and the present user
pages have frames that are none of them and that `kfree` accepts. -/
structure Dir (boot : Boot) (mem : Memory) (d : Frame) : Prop where
  dir : ∀ i, tableOf mem d i ≠ some d
  tables : ∀ i j t, tableOf mem d i = some t → tableOf mem d j = some t → i = j
  pages : ∀ v < userPages, PteP (pte mem d v) →
    Managed boot (pteAddr (pte mem d v)) ∧ pteAddr (pte mem d v) ≠ d ∧
      ∀ i, tableOf mem d i ≠ some (pteAddr (pte mem d v))

def tableBag (mem : Memory) (d : Frame) (i : Nat) : Multiset Frame :=
  (tableOf mem d i).elim 0 fun t => {t}

def pageBag (mem : Memory) (d : Frame) (v : Nat) : Multiset Frame :=
  if PteP (pte mem d v) then {pteAddr (pte mem d v)} else 0

/-- The frames of the tables. -/
@[irreducible]
def tableFrames (mem : Memory) (d : Frame) : Multiset Frame :=
  ∑ i ∈ Finset.range dirEntries, tableBag mem d i

/-- The frames of the present user pages. -/
@[irreducible]
def pageFrames (mem : Memory) (d : Frame) : Multiset Frame :=
  ∑ v ∈ Finset.range userPages, pageBag mem d v

/-- The frames of an address space. -/
@[irreducible]
def owned (mem : Memory) (d : Frame) : Multiset Frame :=
  {d} + tableFrames mem d + pageFrames mem d

theorem userPages_eq : userPages = 524288 := by
  unfold userPages
  rfl

theorem dirEntries_eq : dirEntries = 1024 := by
  unfold dirEntries
  rfl

theorem managed_lt {boot : Boot} {f : Nat} (managed : Managed boot f) :
    f < 131072 := by
  have below : f * 4096 < 536870912 := managed.2
  omega

theorem managed_ne_zero {boot : Boot} {f : Nat} (managed : Managed boot f) :
    f ≠ 0 := by
  have above : boot.endAddress ≤ f * 4096 := managed.1
  have low := boot.extmem_lt_data
  have order := boot.data_le_end
  omega

/-! ## Words of frames -/

theorem entry_lt (mem : Memory) (t : Frame) (i : Nat) :
    entry mem t i < 4294967296 :=
  getWord_lt _ _

theorem entry_update_of_ne (mem : Memory) {f t : Frame} (page : Page) (i : Nat)
    (other : t ≠ f) : entry (Function.update mem f page) t i = entry mem t i := by
  unfold entry
  rw [Function.update_of_ne other]

theorem entry_zeroPage (mem : Memory) (t : Frame) (i : Nat) :
    entry (Function.update mem t zeroPage) t i = 0 := by
  unfold entry
  rw [Function.update_self]
  simp [getWord, getHalf, getByte, zeroPage]

theorem getWord_of_le (page : Page) {i : Nat} (beyond : 1024 ≤ i) :
    getWord page (4 * i) = 0 := by
  have size : pgsize = 4096 := rfl
  unfold getWord getHalf getByte
  rw [dif_neg (by omega), dif_neg (by omega), dif_neg (by omega), dif_neg (by omega)]

theorem tableOf_of_le (mem : Memory) (d : Frame) {i : Nat} (beyond : 1024 ≤ i) :
    tableOf mem d i = none := by
  unfold tableOf entry
  rw [getWord_of_le _ beyond]
  rfl

theorem lt_of_tableOf {mem : Memory} {d : Frame} {i : Nat} {t : Frame}
    (found : tableOf mem d i = some t) : i < 1024 := by
  by_contra beyond
  rw [tableOf_of_le mem d (by omega)] at found
  cases found

theorem entry_setEntry (mem : Memory) {t : Frame} {i : Nat} (value : Nat)
    (u : Frame) {j : Nat} (iLt : i < 1024) :
    entry (setEntry mem t i value) u j =
      if u = t ∧ j = i then value % 4294967296 else entry mem u j := by
  have size : pgsize = 4096 := rfl
  unfold setEntry
  by_cases same : u = t
  · subst same
    unfold entry
    rw [Function.update_self]
    by_cases index : j = i
    · subst index
      rw [if_pos ⟨rfl, rfl⟩, getWord_setWord _ _ (by omega)]
    · rw [if_neg (fun h => index h.2),
        getWord_setWord_of_disjoint _ _ (by omega) (by omega)]
  · rw [if_neg (fun h => same h.1), entry_update_of_ne mem _ j same]

/-- `pa | perm | PTE_P` for the address of a frame. -/
theorem or_entry (f : Nat) {perm : Nat} (permLt : perm < 4096) :
    f * 4096 ||| perm ||| 1 = f * 4096 + (perm ||| 1) := by
  have flags : perm ||| 1 < 2 ^ 12 := Nat.or_lt_two_pow permLt (by decide)
  rw [Nat.or_assoc, Nat.mul_comm]
  exact (Nat.two_pow_add_eq_or_of_lt flags f).symm

theorem pteAddr_entry (f : Nat) {perm : Nat} (permLt : perm < 4096) :
    pteAddr (f * 4096 ||| perm ||| 1) = f := by
  have flags : perm ||| 1 < 2 ^ 12 := Nat.or_lt_two_pow permLt (by decide)
  rw [or_entry f permLt]
  show (f * 4096 + (perm ||| 1)) / 4096 = f
  omega

theorem pteP_entry (f : Nat) {perm : Nat} (permLt : perm < 4096) :
    PteP (f * 4096 ||| perm ||| 1) := by
  have odd : (perm ||| 1) % 2 = 1 := by simp [Nat.or_mod_two_eq_one]
  rw [or_entry f permLt]
  unfold PteP
  omega

theorem entry_lt_of_frame {f : Nat} (fLt : f < 1048576) {perm : Nat}
    (permLt : perm < 4096) : f * 4096 ||| perm ||| 1 < 4294967296 := by
  have flags : perm ||| 1 < 2 ^ 12 := Nat.or_lt_two_pow permLt (by decide)
  rw [or_entry f permLt]
  omega

theorem walkpgdir_eq (mem : Memory) (d : Frame) (va : Nat) :
    walkpgdir mem d va = (tableOf mem d (pdx va)).map fun t => (t, ptx va) := by
  unfold walkpgdir tableOf
  split <;> rfl

/-! ## What a store does to the map -/

theorem tableOf_update {mem : Memory} {d f : Frame} (page : Page) (i : Nat)
    (notDir : d ≠ f) : tableOf (Function.update mem f page) d i = tableOf mem d i := by
  unfold tableOf
  rw [entry_update_of_ne mem page i notDir]

/-- A store to a frame that is neither the directory nor a table. -/
theorem pte_update {mem : Memory} {d f : Frame} (page : Page) (v : Nat)
    (notDir : d ≠ f) (notTable : ∀ i, tableOf mem d i ≠ some f) :
    pte (Function.update mem f page) d v = pte mem d v := by
  unfold pte
  rw [tableOf_update page _ notDir]
  split
  · rename_i t found
    refine entry_update_of_ne mem page _ ?_
    rintro rfl
    exact notTable _ found
  · rfl

theorem tableOf_setEntry {mem : Memory} {d t : Frame} {j : Nat} (value i : Nat)
    (notDir : d ≠ t) : tableOf (setEntry mem t j value) d i = tableOf mem d i :=
  tableOf_update _ _ notDir

/-- A store to an entry of a table. -/
theorem pte_setEntry {mem : Memory} {d t : Frame} {i j : Nat} (value v : Nat)
    (notDir : ∀ i, tableOf mem d i ≠ some d)
    (distinct : ∀ i j t, tableOf mem d i = some t → tableOf mem d j = some t → i = j)
    (found : tableOf mem d i = some t) (jLt : j < 1024) :
    pte (setEntry mem t j value) d v =
      if v = i * 1024 + j then value % 4294967296 else pte mem d v := by
  have other : d ≠ t := by
    rintro rfl
    exact notDir i found
  unfold pte
  rw [tableOf_setEntry value _ other]
  cases table : tableOf mem d (v / 1024) with
  | none =>
      rw [if_neg]
      rintro rfl
      rw [show (i * 1024 + j) / 1024 = i by omega, found] at table
      cases table
  | some u =>
      simp only
      rw [entry_setEntry mem value u jLt]
      by_cases same : u = t
      · subst same
        have index := distinct _ _ u table found
        by_cases offset : v % 1024 = j
        · rw [if_pos ⟨rfl, offset⟩, if_pos (by omega)]
        · rw [if_neg (fun h => offset h.2), if_neg (by omega)]
      · rw [if_neg (fun h => same h.1), if_neg]
        rintro rfl
        rw [show (i * 1024 + j) / 1024 = i by omega, found] at table
        exact same (Option.some.inj table).symm

/-- A new table, all zeros, is put into the directory. -/
theorem install {mem : Memory} {d t : Frame} {i value : Nat}
    (missing : tableOf mem d i = none) (iLt : i < 1024) (notDir : d ≠ t)
    (notSelf : ∀ i, tableOf mem d i ≠ some d)
    (fresh : ∀ i, tableOf mem d i ≠ some t) (present : PteP value)
    (address : pteAddr value = t) (bound : value < 4294967296) :
    (∀ k, tableOf (setEntry (Function.update mem t zeroPage) d i value) d k =
        if k = i then some t else tableOf mem d k) ∧
      ∀ v, pte (setEntry (Function.update mem t zeroPage) d i value) d v =
        pte mem d v := by
  have tables (k : Nat) :
      tableOf (setEntry (Function.update mem t zeroPage) d i value) d k =
        if k = i then some t else tableOf mem d k := by
    unfold tableOf
    rw [entry_setEntry _ value d iLt, entry_update_of_ne mem _ k notDir,
      Nat.mod_eq_of_lt bound]
    by_cases same : k = i
    · simp [same, present, address]
    · simp [same]
  refine ⟨tables, fun v => ?_⟩
  unfold pte
  rw [tables]
  by_cases same : v / 1024 = i
  · rw [if_pos same, same, missing]
    simp only
    rw [entry_setEntry _ value t iLt, if_neg (fun h => notDir h.1.symm),
      entry_zeroPage]
  · rw [if_neg same]
    split
    · rename_i u found
      have notNew : u ≠ t := by
        rintro rfl
        exact fresh _ found
      rw [entry_setEntry _ value u iLt, entry_update_of_ne mem _ _ notNew, if_neg]
      rintro ⟨rfl, -⟩
      exact notSelf _ found
    · rfl

/-- The entry that `walkpgdir` stores for a new table. -/
theorem table_entry (t : Nat) : t * 4096 ||| 1 ||| 2 ||| 4 = t * 4096 ||| 6 ||| 1 := by
  rw [Nat.or_assoc, Nat.or_assoc, Nat.or_assoc]
  rfl

/-! ## The frames of a directory -/

theorem mem_tableFrames {mem : Memory} {d t : Frame} :
    t ∈ tableFrames mem d ↔ ∃ i, tableOf mem d i = some t := by
  unfold tableFrames
  rw [Multiset.mem_sum]
  constructor
  · rintro ⟨i, -, isHere⟩
    unfold tableBag at isHere
    cases found : tableOf mem d i with
    | none => simp [found] at isHere
    | some u =>
        simp only [found, Option.elim_some, Multiset.mem_singleton] at isHere
        exact ⟨i, by rw [found, isHere]⟩
  · rintro ⟨i, found⟩
    refine ⟨i, Finset.mem_range.mpr (dirEntries_eq ▸ lt_of_tableOf found), ?_⟩
    simp [tableBag, found]

theorem mem_pageFrames {mem : Memory} {d f : Frame} :
    f ∈ pageFrames mem d ↔
      ∃ v < userPages, PteP (pte mem d v) ∧ pteAddr (pte mem d v) = f := by
  unfold pageFrames
  rw [Multiset.mem_sum]
  constructor
  · rintro ⟨v, vMem, isHere⟩
    unfold pageBag at isHere
    split at isHere
    · exact ⟨v, Finset.mem_range.mp vMem, ‹_›, (Multiset.mem_singleton.mp isHere).symm⟩
    · simp at isHere
  · rintro ⟨v, vLt, present, rfl⟩
    refine ⟨v, Finset.mem_range.mpr vLt, ?_⟩
    simp [pageBag, present]

theorem mem_owned {mem : Memory} {d f : Frame} :
    f ∈ owned mem d ↔ f = d ∨ (∃ i, tableOf mem d i = some f) ∨
      ∃ v < userPages, PteP (pte mem d v) ∧ pteAddr (pte mem d v) = f := by
  unfold owned
  rw [Multiset.mem_add, Multiset.mem_add, Multiset.mem_singleton,
    mem_tableFrames, mem_pageFrames, or_assoc]

theorem pageFrames_congr {mem mem' : Memory} {d : Frame}
    (same : ∀ v < userPages, pte mem' d v = pte mem d v) :
    pageFrames mem' d = pageFrames mem d := by
  unfold pageFrames
  refine Finset.sum_congr rfl fun v vMem => ?_
  unfold pageBag
  rw [same v (Finset.mem_range.mp vMem)]

theorem tableFrames_congr {mem mem' : Memory} {d : Frame}
    (same : ∀ i, tableOf mem' d i = tableOf mem d i) :
    tableFrames mem' d = tableFrames mem d := by
  unfold tableFrames
  refine Finset.sum_congr rfl fun i _ => ?_
  unfold tableBag
  rw [same i]

theorem owned_congr {mem mem' : Memory} {d : Frame}
    (tables : ∀ i, tableOf mem' d i = tableOf mem d i)
    (pages : ∀ v < userPages, pte mem' d v = pte mem d v) :
    owned mem' d = owned mem d := by
  unfold owned
  rw [tableFrames_congr tables, pageFrames_congr pages]

/-- One user page changes. -/
theorem owned_change_page {mem mem' : Memory} {d : Frame} {v : Nat}
    (vLt : v < userPages) (tables : ∀ i, tableOf mem' d i = tableOf mem d i)
    (pages : ∀ u < userPages, u ≠ v → pte mem' d u = pte mem d u) :
    owned mem' d + pageBag mem d v = owned mem d + pageBag mem' d v := by
  have changed : pageFrames mem' d + pageBag mem d v =
      pageFrames mem d + pageBag mem' d v := by
    unfold pageFrames
    refine IndexedBags.sum_change (Finset.mem_range.mpr vLt) fun u uMem other => ?_
    unfold pageBag
    rw [pages u (Finset.mem_range.mp uMem) other]
  unfold owned
  rw [tableFrames_congr tables, add_assoc, add_assoc ({d} + tableFrames mem d)]
  exact congrArg _ changed

/-- A table is added. -/
theorem owned_add_table {mem mem' : Memory} {d t : Frame} {i : Nat}
    (iLt : i < 1024) (missing : tableOf mem d i = none)
    (tables : ∀ k, tableOf mem' d k = if k = i then some t else tableOf mem d k)
    (pages : ∀ v < userPages, pte mem' d v = pte mem d v) :
    owned mem' d = owned mem d + {t} := by
  have iMem : i ∈ Finset.range dirEntries :=
    Finset.mem_range.mpr (dirEntries_eq ▸ iLt)
  have changed : tableFrames mem' d + tableBag mem d i =
      tableFrames mem d + tableBag mem' d i := by
    unfold tableFrames
    refine IndexedBags.sum_change iMem fun k _ other => ?_
    unfold tableBag
    rw [tables k, if_neg other]
  have before : tableBag mem d i = 0 := by simp [tableBag, missing]
  have after : tableBag mem' d i = {t} := by simp [tableBag, tables]
  rw [before, after, add_zero] at changed
  unfold owned
  rw [pageFrames_congr pages, changed]
  abel

theorem pte_of_none {mem : Memory} {d : Frame} {v : Nat}
    (missing : tableOf mem d (v / 1024) = none) : pte mem d v = 0 := by
  simp only [pte, missing]

/-- A directory without tables. -/
theorem owned_of_none {mem : Memory} {d : Frame}
    (missing : ∀ i, tableOf mem d i = none) : owned mem d = {d} := by
  have noTables : tableFrames mem d = 0 := by
    unfold tableFrames
    refine Finset.sum_eq_zero fun i _ => ?_
    simp only [tableBag, missing, Option.elim_none]
  have noPages : pageFrames mem d = 0 := by
    unfold pageFrames
    refine Finset.sum_eq_zero fun v _ => ?_
    unfold pageBag
    rw [pte_of_none (missing _)]
    rfl
  unfold owned
  rw [noTables, noPages, add_zero, add_zero]

end Xv6.Vm
