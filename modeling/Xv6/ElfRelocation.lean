import Mathlib.Data.List.Pairwise
import Mathlib.Tactic.Linarith

/-!
# Loading the kernel's segments

`RelocateELF` goes over the program headers twice.  The first loop finds the lowest
address and the highest rounded end of the segments, and the pages between are
allocated.  The second loop copies `p_filesz` bytes of the file to each segment and
clears the rest of its `p_memsz` bytes.  The range is made of `p_memsz` only, so a
header with a larger `p_filesz` is copied past it.
-/

namespace Xv6.Loader

/-- The buffer with the file, from its first byte on. -/
abbrev Image := Nat → UInt8

/-- Physical memory. -/
abbrev Mem := Nat → UInt8

/-- Bytes that are written from an address on. -/
structure Store where
  address : Nat
  bytes : List UInt8

/-- The store is carried out. -/
def Store.apply (mem : Mem) (store : Store) : Mem := fun a =>
  if store.address ≤ a then (store.bytes[a - store.address]?).getD (mem a) else mem a

/-- `Elf32_Phdr` -/
structure Phdr where
  pType : BitVec 32
  pOffset : BitVec 32
  pVaddr : BitVec 32
  pPaddr : BitVec 32
  pFilesz : BitVec 32
  pMemsz : BitVec 32
  pFlags : BitVec 32
  pAlign : BitVec 32

/-- `PT_LOAD` -/
abbrev ptLoad : BitVec 32 := 1

/-- A field of two bytes. -/
def half (image : Image) (offset : Nat) : Nat :=
  (image offset).toNat + 256 * (image (offset + 1)).toNat

/-- A field of four bytes. -/
def word (image : Image) (offset : Nat) : BitVec 32 :=
  BitVec.ofNat 32 (half image offset + 65536 * half image (offset + 2))

/-- The fields `e_entry`, `e_phoff` and `e_phnum` of the ELF header. -/
def eEntry (image : Image) : BitVec 32 := word image 24

def ePhoff (image : Image) : BitVec 32 := word image 28

def ePhnum (image : Image) : Nat := half image 44

/-- `Phdr[i]` -/
def phdr (image : Image) (i : Nat) : Phdr :=
  let offset := (ePhoff image).toNat + 32 * i
  { pType := word image offset
    pOffset := word image (offset + 4)
    pVaddr := word image (offset + 8)
    pPaddr := word image (offset + 12)
    pFilesz := word image (offset + 16)
    pMemsz := word image (offset + 20)
    pFlags := word image (offset + 24)
    pAlign := word image (offset + 28) }

def phdrs (image : Image) : List Phdr :=
  (List.range (ePhnum image)).map (phdr image)

/-- The locals `start_address` and `end_address` for a header. -/
def startAddress (h : Phdr) : BitVec 64 := h.pPaddr.setWidth 64

def endAddress (h : Phdr) : BitVec 64 :=
  let endAddress := startAddress h + h.pMemsz.setWidth 64
  let mask := (h.pAlign - 1).setWidth 64
  (endAddress + mask) &&& ~~~mask

/-- The locals `init`, `alloc_start_address` and `alloc_end_address`. -/
structure Range where
  init : Bool
  start : BitVec 64
  stop : BitVec 64

/-- The body of the first loop. -/
def widen (range : Range) (h : Phdr) : Range :=
  if h.pType = ptLoad then
    if !range.init then ⟨true, startAddress h, endAddress h⟩
    else
      { range with
        start := if startAddress h < range.start then startAddress h else range.start
        stop := if range.stop < endAddress h then endAddress h else range.stop }
  else range

/-- The body of the second loop. -/
def loadSegment (image : Image) (h : Phdr) : List Store :=
  if h.pType = ptLoad then
    let copied : Store :=
      { address := h.pPaddr.toNat
        bytes := (List.range h.pFilesz.toNat).map fun k => image (h.pOffset.toNat + k) }
    if h.pFilesz < h.pMemsz then
      [copied,
        { address := h.pPaddr.toNat + h.pFilesz.toNat
          bytes := List.replicate (h.pMemsz - h.pFilesz).toNat 0 }]
    else [copied]
  else []

/-- What `RelocateELF` asks for, whether it gets it, what it writes and the address that
it returns. -/
structure Relocation where
  start : BitVec 64
  pages : BitVec 64
  granted : Bool
  stores : List Store
  relocateAddr : BitVec 32

/-- `RelocateELF` after the file is loaded.  The two bounds of the range are not
initialised, and `allocate` tells whether `AllocatePages` grants pages from an
address on. -/
def relocateElf (image : Image) (uninitialised : BitVec 64 × BitVec 64)
    (allocate : BitVec 64 → BitVec 64 → Bool) : Relocation :=
  let range := (phdrs image).foldl widen ⟨false, uninitialised.1, uninitialised.2⟩
  let pages := (range.stop - range.start) / 4096 + 1
  if allocate range.start pages then
    ⟨range.start, pages, true, (phdrs image).flatMap (loadSegment image), eEntry image⟩
  else ⟨range.start, pages, false, [], 0⟩

/-! ## What is asked of it -/

/-- The `PT_LOAD` headers. -/
def loads (image : Image) : List Phdr :=
  (phdrs image).filter fun h => h.pType = ptLoad

/-- Every byte that is written lies in the pages that were allocated. -/
def WritesInside (r : Relocation) : Prop :=
  ∀ store ∈ r.stores, ∀ k < store.bytes.length,
    r.start.toNat ≤ store.address + k ∧
      store.address + k < r.start.toNat + 4096 * r.pages.toNat

/-- The bytes of a segment. -/
def extent (h : Phdr) : Nat := max h.pFilesz.toNat h.pMemsz.toNat

/-- An address in a segment. -/
def Holds (h : Phdr) (a : Nat) : Prop :=
  h.pPaddr.toNat ≤ a ∧ a < h.pPaddr.toNat + extent h

/-- Two segments without a common address. -/
def Apart (h h' : Phdr) : Prop := ∀ a, Holds h a → ¬Holds h' a

/-- The memory has the bytes of the file in the segment, and zeros behind them. -/
def Loaded (image : Image) (mem : Mem) (h : Phdr) : Prop :=
  (∀ k < h.pFilesz.toNat, mem (h.pPaddr.toNat + k) = image (h.pOffset.toNat + k)) ∧
    ∀ k < h.pMemsz.toNat, h.pFilesz.toNat ≤ k → mem (h.pPaddr.toNat + k) = 0

/-- Nothing is written outside the allocated pages, and segments that are apart are
loaded. -/
def Relocates (image : Image) (mem : Mem) (r : Relocation) : Prop :=
  WritesInside r ∧
    (r.granted = true → loads image ≠ [] → (loads image).Pairwise Apart →
      ∀ h ∈ loads image, Loaded image (r.stores.foldl Store.apply mem) h)

/-- The lowest `p_paddr`. -/
def lowest (first : Phdr) (others : List Phdr) : Nat :=
  others.foldl (fun low h => min low h.pPaddr.toNat) first.pPaddr.toNat

/-- The highest rounded end. -/
def highest (first : Phdr) (others : List Phdr) : Nat :=
  others.foldl (fun high h => max high (endAddress h).toNat) (endAddress first).toNat

/-- The end of the pages from the lowest address on that hold the highest end. -/
def pagesEnd : List Phdr → Nat
  | [] => 0
  | first :: others =>
      lowest first others +
        4096 * ((highest first others - lowest first others) / 4096 + 1)

/-- What the file has of each segment ends in these pages. -/
def FilesFit (headers : List Phdr) : Prop :=
  ∀ h ∈ headers, h.pFilesz.toNat = 0 ∨ h.pPaddr.toNat + h.pFilesz.toNat ≤ pagesEnd headers

instance (headers : List Phdr) : Decidable (FilesFit headers) :=
  inferInstanceAs (Decidable (∀ h ∈ headers, _))

/-! ## The range -/

/-- Rounding with any mask does not fall below the address. -/
theorem le_round {a mask : BitVec 64} (small : a.toNat + mask.toNat < 2 ^ 64) :
    a.toNat ≤ ((a + mask) &&& ~~~mask).toNat := by
  generalize sum : a + mask = b
  have apart : (b &&& ~~~mask) &&& (b &&& mask) = 0 := by
    ext i
    cases bit : mask[i] <;> simp [bit]
  have whole : (b &&& ~~~mask) + (b &&& mask) = b := by
    rw [BitVec.add_eq_or_of_and_eq_zero _ _ apart]
    ext i
    simp only [BitVec.getElem_or, BitVec.getElem_and, BitVec.getElem_not]
    cases b[i] <;> cases mask[i] <;> rfl
  have parts := BitVec.toNat_add_of_and_eq_zero apart
  have low : (b &&& mask).toNat ≤ mask.toNat := by
    rw [BitVec.toNat_and]
    exact Nat.and_le_right
  have total : b.toNat = a.toNat + mask.toNat := by
    rw [← sum, BitVec.toNat_add_of_lt small]
  rw [whole] at parts
  omega

theorem toNat_startAddress (h : Phdr) : (startAddress h).toNat = h.pPaddr.toNat := by
  have bound := h.pPaddr.isLt
  rw [startAddress, BitVec.toNat_setWidth]
  exact Nat.mod_eq_of_lt (by omega)

/-- The rounded end is not below the end of the segment. -/
theorem end_le_endAddress (h : Phdr) :
    h.pPaddr.toNat + h.pMemsz.toNat ≤ (endAddress h).toNat := by
  have start := h.pPaddr.isLt
  have size := h.pMemsz.isLt
  have align := (h.pAlign - 1).isLt
  have sizeNat : (h.pMemsz.setWidth 64).toNat = h.pMemsz.toNat := by
    rw [BitVec.toNat_setWidth]
    exact Nat.mod_eq_of_lt (by omega)
  have maskNat : ((h.pAlign - 1).setWidth 64).toNat = (h.pAlign - 1).toNat := by
    rw [BitVec.toNat_setWidth]
    exact Nat.mod_eq_of_lt (by omega)
  have sum : (startAddress h + h.pMemsz.setWidth 64).toNat =
      h.pPaddr.toNat + h.pMemsz.toNat := by
    rw [BitVec.toNat_add_of_lt (by rw [toNat_startAddress, sizeNat]; omega),
      toNat_startAddress, sizeNat]
  rw [← sum]
  exact le_round (by rw [sum, maskNat]; omega)

theorem widen_of_ne {h : Phdr} (other : h.pType ≠ ptLoad) (range : Range) :
    widen range h = range := by
  rw [widen, if_neg other]

/-- Headers of other types do not count. -/
theorem foldl_widen_filter (headers : List Phdr) (range : Range) :
    headers.foldl widen range = (headers.filter fun h => h.pType = ptLoad).foldl widen range := by
  induction headers generalizing range with
  | nil => rfl
  | cons h rest ih =>
      by_cases isLoad : h.pType = ptLoad
      · rw [List.foldl_cons, List.filter_cons_of_pos (by simpa using isLoad), List.foldl_cons, ih]
      · rw [List.foldl_cons, List.filter_cons_of_neg (by simpa using isLoad),
          widen_of_ne isLoad, ih]

/-- Once it is initialised, the range is widened to each segment. -/
theorem foldl_widen {headers : List Phdr} (isLoad : ∀ h ∈ headers, h.pType = ptLoad)
    (range : Range) (isInit : range.init = true) :
    (headers.foldl widen range).start.toNat =
        headers.foldl (fun low h => min low h.pPaddr.toNat) range.start.toNat ∧
      (headers.foldl widen range).stop.toNat =
        headers.foldl (fun high h => max high (endAddress h).toNat) range.stop.toNat := by
  induction headers generalizing range with
  | nil => exact ⟨rfl, rfl⟩
  | cons h rest ih =>
      obtain ⟨first, others⟩ := List.forall_mem_cons.mp isLoad
      have widened : widen range h =
          ⟨true, if startAddress h < range.start then startAddress h else range.start,
            if range.stop < endAddress h then endAddress h else range.stop⟩ := by
        simp only [widen, if_pos first, isInit, Bool.not_true, Bool.false_eq_true, if_false]
      have low : (if startAddress h < range.start then startAddress h
          else range.start).toNat = min range.start.toNat h.pPaddr.toNat := by
        have start := toNat_startAddress h
        split
        · rename_i below
          rw [BitVec.lt_def] at below
          omega
        · rename_i above
          rw [BitVec.lt_def] at above
          omega
      have high : (if range.stop < endAddress h then endAddress h
          else range.stop).toNat = max range.stop.toNat (endAddress h).toNat := by
        split
        · rename_i below
          rw [BitVec.lt_def] at below
          omega
        · rename_i above
          rw [BitVec.lt_def] at above
          omega
      rw [List.foldl_cons, List.foldl_cons, List.foldl_cons, ← low, ← high, widened]
      exact ih others _ rfl

/-- The first loop finds the lowest address and the highest end. -/
theorem range_eq {image : Image} {first : Phdr} {others : List Phdr}
    (headers : loads image = first :: others) (uninitialised : BitVec 64 × BitVec 64) :
    let range := (phdrs image).foldl widen ⟨false, uninitialised.1, uninitialised.2⟩
    range.start.toNat = lowest first others ∧ range.stop.toNat = highest first others := by
  have isLoad : ∀ h ∈ first :: others, h.pType = ptLoad := by
    intro h isHere
    rw [← headers] at isHere
    simpa using (List.mem_filter.mp isHere).2
  obtain ⟨firstLoad, othersLoad⟩ := List.forall_mem_cons.mp isLoad
  have entered : widen ⟨false, uninitialised.1, uninitialised.2⟩ first =
      ⟨true, startAddress first, endAddress first⟩ := by
    rw [widen, if_pos firstLoad]
    rfl
  have filtered := foldl_widen_filter (phdrs image) ⟨false, uninitialised.1, uninitialised.2⟩
  rw [show (phdrs image).filter (fun h => h.pType = ptLoad) = first :: others from headers,
    List.foldl_cons, entered] at filtered
  obtain ⟨low, high⟩ := foldl_widen othersLoad ⟨true, startAddress first, endAddress first⟩ rfl
  simp only
  rw [filtered, low, high, toNat_startAddress]
  exact ⟨rfl, rfl⟩

theorem foldl_min_le (headers : List Phdr) (low : Nat) :
    headers.foldl (fun low h => min low h.pPaddr.toNat) low ≤ low ∧
      ∀ h ∈ headers, headers.foldl (fun low h => min low h.pPaddr.toNat) low ≤
        h.pPaddr.toNat := by
  induction headers generalizing low with
  | nil => exact ⟨Nat.le_refl _, nofun⟩
  | cons h rest ih =>
      obtain ⟨below, each⟩ := ih (min low h.pPaddr.toNat)
      rw [List.foldl_cons]
      exact ⟨below.trans (Nat.min_le_left _ _),
        List.forall_mem_cons.mpr ⟨below.trans (Nat.min_le_right _ _), each⟩⟩

theorem le_foldl_max (headers : List Phdr) (high : Nat) :
    high ≤ headers.foldl (fun high h => max high (endAddress h).toNat) high ∧
      ∀ h ∈ headers, (endAddress h).toNat ≤
        headers.foldl (fun high h => max high (endAddress h).toNat) high := by
  induction headers generalizing high with
  | nil => exact ⟨Nat.le_refl _, nofun⟩
  | cons h rest ih =>
      obtain ⟨above, each⟩ := ih (max high (endAddress h).toNat)
      rw [List.foldl_cons]
      exact ⟨(Nat.le_max_left _ _).trans above,
        List.forall_mem_cons.mpr ⟨(Nat.le_max_right _ _).trans above, each⟩⟩

theorem lowest_le {first h : Phdr} {others : List Phdr} (isHere : h ∈ first :: others) :
    lowest first others ≤ h.pPaddr.toNat := by
  obtain ⟨below, each⟩ := foldl_min_le others first.pPaddr.toNat
  rcases List.mem_cons.mp isHere with rfl | isOther
  · exact below
  · exact each h isOther

theorem le_highest {first h : Phdr} {others : List Phdr} (isHere : h ∈ first :: others) :
    h.pPaddr.toNat + h.pMemsz.toNat ≤ highest first others := by
  obtain ⟨above, each⟩ := le_foldl_max others (endAddress first).toNat
  refine (end_le_endAddress h).trans ?_
  rcases List.mem_cons.mp isHere with rfl | isOther
  · exact above
  · exact each h isOther

/-- The pages hold every segment as far as `p_memsz` tells its size. -/
theorem lt_pagesEnd {first h : Phdr} {others : List Phdr} (isHere : h ∈ first :: others) :
    h.pPaddr.toNat + h.pMemsz.toNat < pagesEnd (first :: others) := by
  have low := lowest_le isHere
  have high := le_highest isHere
  rw [pagesEnd]
  omega

/-! ## What is written -/

/-- The bytes of a header are written inside a range that holds its `p_memsz` bytes
exactly if what the file has of it ends in the range. -/
theorem loadSegment_inside {image : Image} {h : Phdr} (isLoad : h.pType = ptLoad)
    {low high : Nat} (above : low ≤ h.pPaddr.toNat)
    (below : h.pPaddr.toNat + h.pMemsz.toNat < high) :
    (∀ store ∈ loadSegment image h, ∀ k < store.bytes.length,
        low ≤ store.address + k ∧ store.address + k < high) ↔
      (h.pFilesz.toNat = 0 ∨ h.pPaddr.toNat + h.pFilesz.toNat ≤ high) := by
  have copied : (∀ k < ((List.range h.pFilesz.toNat).map fun k =>
        image (h.pOffset.toNat + k)).length,
        low ≤ h.pPaddr.toNat + k ∧ h.pPaddr.toNat + k < high) ↔
      (h.pFilesz.toNat = 0 ∨ h.pPaddr.toNat + h.pFilesz.toNat ≤ high) := by
    rw [List.length_map, List.length_range]
    constructor
    · intro inside
      by_contra outside
      have last := inside (h.pFilesz.toNat - 1) (by omega)
      omega
    · intro fits k isByte
      omega
  unfold loadSegment
  rw [if_pos isLoad]
  by_cases clears : h.pFilesz < h.pMemsz
  · have less := BitVec.lt_def.mp clears
    have rest : (h.pMemsz - h.pFilesz).toNat = h.pMemsz.toNat - h.pFilesz.toNat :=
      BitVec.toNat_sub_of_le (BitVec.le_of_lt clears)
    simp only [if_pos clears, List.forall_mem_cons]
    rw [copied]
    refine and_iff_left ⟨?_, nofun⟩
    intro k isByte
    rw [List.length_replicate, rest] at isByte
    omega
  · simp only [if_neg clears, List.forall_mem_singleton]
    exact copied

theorem loadSegment_of_ne {image : Image} {h : Phdr} (other : h.pType ≠ ptLoad) :
    loadSegment image h = [] := by
  rw [loadSegment, if_neg other]

/-- Only the `PT_LOAD` headers are written. -/
theorem flatMap_loadSegment (image : Image) (headers : List Phdr) :
    headers.flatMap (loadSegment image) =
      (headers.filter fun h => h.pType = ptLoad).flatMap (loadSegment image) := by
  induction headers with
  | nil => rfl
  | cons h rest ih =>
      by_cases isLoad : h.pType = ptLoad
      · rw [List.flatMap_cons, List.filter_cons_of_pos (by simpa using isLoad),
          List.flatMap_cons, ih]
      · rw [List.flatMap_cons, List.filter_cons_of_neg (by simpa using isLoad),
          loadSegment_of_ne isLoad, List.nil_append, ih]

/-! ## What the memory holds -/

theorem Store.apply_inside (mem : Mem) {store : Store} {k : Nat}
    (inside : k < store.bytes.length) :
    store.apply mem (store.address + k) = store.bytes[k] := by
  rw [Store.apply, if_pos (Nat.le_add_right _ _), Nat.add_sub_cancel_left,
    List.getElem?_eq_getElem inside, Option.getD_some]

theorem Store.apply_outside (mem : Mem) {store : Store} {a : Nat}
    (outside : a < store.address ∨ store.address + store.bytes.length ≤ a) :
    store.apply mem a = mem a := by
  unfold Store.apply
  split
  · rw [List.getElem?_eq_none (by omega), Option.getD_none]
  · rfl

/-- Loading a segment leaves the addresses outside it. -/
theorem loadSegment_outside (image : Image) (mem : Mem) {h : Phdr} {a : Nat}
    (outside : ¬Holds h a) : (loadSegment image h).foldl Store.apply mem a = mem a := by
  unfold Holds extent at outside
  unfold loadSegment
  split
  · by_cases clears : h.pFilesz < h.pMemsz
    · have less := BitVec.lt_def.mp clears
      have rest : (h.pMemsz - h.pFilesz).toNat = h.pMemsz.toNat - h.pFilesz.toNat :=
        BitVec.toNat_sub_of_le (BitVec.le_of_lt clears)
      simp only [if_pos clears, List.foldl_cons, List.foldl_nil]
      rw [Store.apply_outside _ (by simp only [List.length_replicate]; omega),
        Store.apply_outside _ (by simp only [List.length_map, List.length_range]; omega)]
    · have notLess := mt BitVec.lt_def.mpr clears
      simp only [if_neg clears, List.foldl_cons, List.foldl_nil]
      rw [Store.apply_outside _ (by simp only [List.length_map, List.length_range]; omega)]
  · rfl

/-- Loading a segment puts the file's bytes and the zeros in their places. -/
theorem loaded_loadSegment (image : Image) (mem : Mem) {h : Phdr} (isLoad : h.pType = ptLoad) :
    Loaded image ((loadSegment image h).foldl Store.apply mem) h := by
  have byte (mem : Mem) (k : Nat) (isByte : k < h.pFilesz.toNat) :
      Store.apply mem ⟨h.pPaddr.toNat, (List.range h.pFilesz.toNat).map fun k =>
        image (h.pOffset.toNat + k)⟩ (h.pPaddr.toNat + k) = image (h.pOffset.toNat + k) := by
    rw [Store.apply_inside mem (by simpa using isByte), List.getElem_map, List.getElem_range]
  unfold loadSegment
  rw [if_pos isLoad]
  by_cases clears : h.pFilesz < h.pMemsz
  · have less := BitVec.lt_def.mp clears
    have rest : (h.pMemsz - h.pFilesz).toNat = h.pMemsz.toNat - h.pFilesz.toNat :=
      BitVec.toNat_sub_of_le (BitVec.le_of_lt clears)
    simp only [if_pos clears, List.foldl_cons, List.foldl_nil]
    constructor
    · intro k isByte
      rw [Store.apply_outside _ (.inl (by simp only; omega)), byte mem k isByte]
    · intro k inside behind
      obtain ⟨j, rfl⟩ : ∃ j, k = h.pFilesz.toNat + j := ⟨k - h.pFilesz.toNat, by omega⟩
      rw [← Nat.add_assoc,
        Store.apply_inside _ (by simp only [List.length_replicate]; omega),
        List.getElem_replicate]
  · have notLess := mt BitVec.lt_def.mpr clears
    simp only [if_neg clears, List.foldl_cons, List.foldl_nil]
    constructor
    · exact byte mem
    · intro k inside behind
      omega

theorem Loaded.congr {image : Image} {mem mem' : Mem} {h : Phdr} (loaded : Loaded image mem h)
    (same : ∀ a, Holds h a → mem' a = mem a) : Loaded image mem' h := by
  unfold Holds extent at same
  constructor
  · intro k inside
    rw [same _ (by omega)]
    exact loaded.1 k inside
  · intro k inside behind
    rw [same _ (by omega)]
    exact loaded.2 k inside behind

theorem foldl_outside (image : Image) (headers : List Phdr) (mem : Mem) {a : Nat}
    (outside : ∀ h ∈ headers, ¬Holds h a) :
    (headers.flatMap (loadSegment image)).foldl Store.apply mem a = mem a := by
  induction headers generalizing mem with
  | nil => rfl
  | cons h rest ih =>
      obtain ⟨first, others⟩ := List.forall_mem_cons.mp outside
      rw [List.flatMap_cons, List.foldl_append, ih _ others, loadSegment_outside image mem first]

/-- Segments that are apart are all loaded. -/
theorem loaded_of_apart (image : Image) {headers : List Phdr}
    (isLoad : ∀ h ∈ headers, h.pType = ptLoad) (apart : headers.Pairwise Apart) (mem : Mem) :
    ∀ h ∈ headers,
      Loaded image ((headers.flatMap (loadSegment image)).foldl Store.apply mem) h := by
  induction headers generalizing mem with
  | nil => exact nofun
  | cons first rest ih =>
      obtain ⟨firstApart, restApart⟩ := List.pairwise_cons.mp apart
      obtain ⟨firstLoad, restLoad⟩ := List.forall_mem_cons.mp isLoad
      rw [List.flatMap_cons, List.foldl_append]
      refine List.forall_mem_cons.mpr ⟨?_, ih restLoad restApart _⟩
      apply (loaded_loadSegment image mem firstLoad).congr
      intro a holds
      exact foldl_outside image rest _ fun h isHere => firstApart h isHere a holds

/-! ## What `RelocateELF` does -/

theorem isLoad_of_mem {image : Image} {h : Phdr} (isHere : h ∈ loads image) :
    h.pType = ptLoad := by
  simpa using (List.mem_filter.mp isHere).2

theorem relocateElf_refused {image : Image} {uninitialised : BitVec 64 × BitVec 64}
    {allocate : BitVec 64 → BitVec 64 → Bool}
    (refused : (relocateElf image uninitialised allocate).granted = false) :
    (relocateElf image uninitialised allocate).stores = [] := by
  unfold relocateElf at refused ⊢
  simp only at refused ⊢
  split at refused
  · cases refused
  · rename_i notGranted
    rw [if_neg notGranted]

theorem relocateElf_granted {image : Image} {uninitialised : BitVec 64 × BitVec 64}
    {allocate : BitVec 64 → BitVec 64 → Bool}
    (granted : (relocateElf image uninitialised allocate).granted = true) :
    (relocateElf image uninitialised allocate).stores =
      (loads image).flatMap (loadSegment image) := by
  unfold relocateElf at granted ⊢
  simp only at granted ⊢
  split at granted
  · rename_i isGranted
    rw [if_pos isGranted]
    exact flatMap_loadSegment image (phdrs image)
  · cases granted

/-- The pages asked for are those from the lowest address to `pagesEnd`. -/
theorem relocateElf_range {image : Image} {first : Phdr} {others : List Phdr}
    (headers : loads image = first :: others) (uninitialised : BitVec 64 × BitVec 64)
    (allocate : BitVec 64 → BitVec 64 → Bool) :
    (relocateElf image uninitialised allocate).start.toNat = lowest first others ∧
      (relocateElf image uninitialised allocate).start.toNat +
          4096 * (relocateElf image uninitialised allocate).pages.toNat =
        pagesEnd (first :: others) := by
  obtain ⟨low, high⟩ := range_eq headers uninitialised
  have start : (relocateElf image uninitialised allocate).start =
      ((phdrs image).foldl widen ⟨false, uninitialised.1, uninitialised.2⟩).start := by
    unfold relocateElf
    simp only
    split <;> rfl
  have pages : (relocateElf image uninitialised allocate).pages =
      (((phdrs image).foldl widen ⟨false, uninitialised.1, uninitialised.2⟩).stop -
        ((phdrs image).foldl widen ⟨false, uninitialised.1, uninitialised.2⟩).start) / 4096 +
          1 := by
    unfold relocateElf
    simp only
    split <;> rfl
  generalize (phdrs image).foldl widen ⟨false, uninitialised.1, uninitialised.2⟩ = range at *
  have least := lowest_le (List.mem_cons_self (a := first) (l := others))
  have most := le_highest (List.mem_cons_self (a := first) (l := others))
  have bound := range.stop.isLt
  have ordered : range.start ≤ range.stop := by
    rw [BitVec.le_def]
    omega
  have count : (relocateElf image uninitialised allocate).pages.toNat =
      (highest first others - lowest first others) / 4096 + 1 := by
    rw [pages, BitVec.toNat_add, BitVec.toNat_udiv, BitVec.toNat_sub_of_le ordered, low, high]
    have size : (4096 : BitVec 64).toNat = 4096 := rfl
    have one : (1 : BitVec 64).toNat = 1 := rfl
    rw [size, one]
    omega
  rw [count, start, low, pagesEnd]
  exact ⟨rfl, rfl⟩

/-- `RelocateELF` writes inside its pages exactly if it gets none or what the file has
of each segment ends in them. -/
theorem writesInside_iff (image : Image) (uninitialised : BitVec 64 × BitVec 64)
    (allocate : BitVec 64 → BitVec 64 → Bool) :
    WritesInside (relocateElf image uninitialised allocate) ↔
      ((relocateElf image uninitialised allocate).granted = true → FilesFit (loads image)) := by
  cases granted : (relocateElf image uninitialised allocate).granted with
  | false =>
      refine iff_of_true ?_ nofun
      rw [WritesInside, relocateElf_refused granted]
      exact nofun
  | true =>
      have stores := relocateElf_granted granted
      have isLoad (h : Phdr) (isHere : h ∈ loads image) := isLoad_of_mem isHere
      rw [WritesInside, stores, List.forall_mem_flatMap, forall_prop_of_true rfl, FilesFit]
      cases headers : loads image with
      | nil => exact iff_of_true nofun nofun
      | cons first others =>
          obtain ⟨start, stop⟩ := relocateElf_range headers uninitialised allocate
          rw [headers] at isLoad
          rw [stop, start]
          refine forall₂_congr fun h isHere => ?_
          exact loadSegment_inside (isLoad h isHere) (lowest_le isHere) (lt_pagesEnd isHere)

/-- `RelocateELF` writes inside its pages, and loads segments that are apart, exactly if
it gets no pages or what the file has of each segment ends in the pages. -/
theorem relocates_iff (image : Image) (mem : Mem) (uninitialised : BitVec 64 × BitVec 64)
    (allocate : BitVec 64 → BitVec 64 → Bool) :
    Relocates image mem (relocateElf image uninitialised allocate) ↔
      ((relocateElf image uninitialised allocate).granted = true → FilesFit (loads image)) := by
  rw [Relocates, writesInside_iff]
  refine and_iff_left_of_imp fun _ granted _ apart => ?_
  rw [relocateElf_granted granted]
  exact loaded_of_apart image (fun h isHere => isLoad_of_mem isHere) apart mem

/-- The pages hold what the file has of the segments if no header has a larger
`p_filesz` than `p_memsz`. -/
theorem filesFit_of_le {headers : List Phdr}
    (shorter : ∀ h ∈ headers, h.pFilesz.toNat ≤ h.pMemsz.toNat) : FilesFit headers := by
  cases headers with
  | nil => exact nofun
  | cons first others =>
      intro h isHere
      have inside := lt_pagesEnd isHere
      have short := shorter h isHere
      right
      omega

/-- An image with one header: a segment at 0x100000 with two pages in the file and none
in memory. -/
def wideImage : Image := fun offset =>
  if offset = 28 then 52 else if offset = 44 then 1 else if offset = 52 then 1
  else if offset = 66 then 0x10 else if offset = 69 then 0x20
  else if offset = 81 then 0x10 else 0

/-- One page is allocated for it, and two are written. -/
theorem wideImage_outside :
    (relocateElf wideImage (0, 0) fun _ _ => true).pages = 1 ∧
      ¬Relocates wideImage (fun _ => 0) (relocateElf wideImage (0, 0) fun _ _ => true) := by
  constructor
  · decide
  · rintro ⟨inside, -⟩
    rw [writesInside_iff] at inside
    exact absurd inside (by decide)

end Xv6.Loader
