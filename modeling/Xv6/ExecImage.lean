import Xv6.Copyout
import Xv6.FileContents
import Xv6.GrownMemory
import Xv6.KernelMapping

/-!
# The image that `exec` builds

`exec` reads the headers of a file, whatever they say, and builds an address
space for it: the kernel's part, the segments, an inaccessible page and the
page of the stack.  Until it commits it gives every frame back when it fails.
-/

namespace Xv6.Vm

open ByteFields StateTriples

/-! ## Reading the file -/

/-- `readi` of a file that is not a device. -/
def readi (file : List UInt8) (off n : Nat) : Int × List UInt8 :=
  if file.length < off ∨ 2 ^ 32 ≤ off + n then (-1, [])
  else
    let bytes := (file.drop off).take n
    (bytes.length, bytes)

/-- That is what the blocks of the file give. -/
theorem readi_content {s : Blocks.FsState} {i : Nat} (settled : Blocks.Settled s)
    (devsw : UInt16 → UInt32 → Int) (valid : s.valid i = true)
    (file : (s.inode i).type ≠ Blocks.tDev) (off n : UInt32) :
    Blocks.readi devsw i off n s = .ok (readi (s.content i) off.toNat n.toNat, s) := by
  rw [Blocks.readi_eq devsw settled valid file, readi]
  split <;> rfl

/-- A field of four bytes. -/
def word (bytes : List UInt8) (i : Nat) : Nat :=
  (bytes.getD i 0).toNat + 256 * (bytes.getD (i + 1) 0).toNat +
    65536 * (bytes.getD (i + 2) 0).toNat + 16777216 * (bytes.getD (i + 3) 0).toNat

/-- A field of two bytes. -/
def half (bytes : List UInt8) (i : Nat) : Nat :=
  (bytes.getD i 0).toNat + 256 * (bytes.getD (i + 1) 0).toNat

/-- The fields of `struct elfhdr` that `exec` reads. -/
structure Elfhdr where
  magic : Nat
  entry : Nat
  phoff : Nat
  phnum : Nat

def elfhdr (bytes : List UInt8) : Elfhdr :=
  ⟨word bytes 0, word bytes 24, word bytes 28, half bytes 44⟩

/-- The fields of `struct proghdr` that `exec` reads. -/
structure Proghdr where
  type : Nat
  off : Nat
  vaddr : Nat
  filesz : Nat
  memsz : Nat

def proghdr (bytes : List UInt8) : Proghdr :=
  ⟨word bytes 0, word bytes 4, word bytes 8, word bytes 16, word bytes 20⟩

/-- `ELF_MAGIC` -/
abbrev elfMagic : Nat := 0x464C457F

/-- `ELF_PROG_LOAD` -/
abbrev elfProgLoad : Nat := 1

/-! ## Building the address space -/

/-- The loop of `loaduvm`. -/
def loaduvmLoop (pgdir : Frame) (addr : Nat) (file : List UInt8) (offset sz : Nat) :
    Nat → Nat → KernelM Int
  | 0, _ => throw .diverges
  | fuel + 1, i => do
      if i < sz then
        match walkpgdir (← get).mem pgdir ((addr + i) % 4294967296) with
        | none => throw .addressMissing
        | some (table, index) =>
            let pa := pteAddr (entry (← get).mem table index)
            let n := if sz - i < 4096 then sz - i else 4096
            let read := readi file ((offset + i) % 4294967296) n
            modify fun s => { s with mem := memmove s.mem pa 0 read.2 }
            if read.1 ≠ n then return -1
            loaduvmLoop pgdir addr file offset sz fuel ((i + 4096) % 4294967296)
      else return 0

/-- `loaduvm` -/
def loaduvm (pgdir : Frame) (addr : Nat) (file : List UInt8) (offset sz : Nat) :
    KernelM Int := do
  if addr % 4096 ≠ 0 then throw .notAligned
  loaduvmLoop pgdir addr file offset sz 1048577 0

/-- `clearpteu` -/
def clearpteu (pgdir : Frame) (uva : Nat) : KernelM Unit := do
  match walkpgdir (← get).mem pgdir uva with
  | none => throw .clearpteu
  | some (table, i) => storeEntry table i (entry (← get).mem table i &&& 0xFFFFFFFB)

/-- The loop of `exec` over the program headers: the size, or nothing after
`goto bad`. -/
def loadSegments (boot : Boot) (pgdir : Frame) (file : List UInt8) :
    Nat → Nat → Nat → KernelM (Option Nat)
  | 0, _, sz => return some sz
  | phnum + 1, off, sz => do
      let read := readi file off 32
      if read.1 ≠ 32 then return none
      let ph := proghdr read.2
      if ph.type ≠ elfProgLoad then
        loadSegments boot pgdir file phnum ((off + 32) % 4294967296) sz
      else
        let newsz := (ph.vaddr + ph.memsz) % 4294967296
        if ph.memsz < ph.filesz then return none
        if newsz < ph.vaddr then return none
        let sz ← allocuvm boot pgdir sz newsz
        if sz = 0 then return none
        if ph.vaddr % 4096 ≠ 0 then return none
        if (← loaduvm pgdir ph.vaddr file ph.off ph.filesz) < 0 then return none
        loadSegments boot pgdir file phnum ((off + 32) % 4294967296) sz

/-- The address space with its stack, up to the arguments: the directory, the
size and the entry point, or nothing after `goto bad`. -/
def loadImage (boot : Boot) (file : List UInt8) : KernelM (Option (Frame × Nat × Nat)) := do
  let read := readi file 0 52
  if read.1 ≠ 52 then return none
  let elf := elfhdr read.2
  if elf.magic ≠ elfMagic then return none
  match ← setupkvm boot with
  | none => return none
  | some pgdir =>
      match ← loadSegments boot pgdir file elf.phnum elf.phoff 0 with
      | none =>
          freevm boot pgdir
          return none
      | some sz =>
          let sz := pgroundup sz
          let sz ← allocuvm boot pgdir sz ((sz + 2 * 4096) % 4294967296)
          if sz = 0 then
            freevm boot pgdir
            return none
          clearpteu pgdir ((sz + 4294967296 - 2 * 4096) % 4294967296)
          return some (pgdir, sz, elf.entry)

/-! ## The bytes of user pages -/

theorem walkpgdir_page (mem : Memory) (d : Frame) {va : Nat} (small : va < 4294967296) :
    walkpgdir mem d va =
      (tableOf mem d (va / 4096 / 1024)).map fun t => (t, va / 4096 % 1024) := by
  have index : pdx va = va / 4096 / 1024 := by
    unfold pdx
    omega
  rw [walkpgdir_eq, index]
  rfl

/-- The image with bytes laid over it from an address on. -/
def overlay (image : Nat → UInt8) (addr : Nat) (bytes : List UInt8) (va : Nat) : UInt8 :=
  if addr ≤ va ∧ va < addr + bytes.length then bytes.getD (va - addr) 0 else image va

theorem overlay_nil (image : Nat → UInt8) (addr : Nat) : overlay image addr [] = image := by
  ext va
  rw [overlay, if_neg]
  rw [List.length_nil]
  omega

theorem overlay_append (image : Nat → UInt8) (addr : Nat) (first second : List UInt8) :
    overlay (overlay image addr first) (addr + first.length) second =
      overlay image addr (first ++ second) := by
  funext va
  unfold overlay
  rw [List.length_append]
  by_cases low : addr ≤ va ∧ va < addr + first.length
  · rw [if_neg (by omega), if_pos low, if_pos (by omega), List.getD_eq_getElem?_getD,
      List.getD_eq_getElem?_getD, List.getElem?_append_left (by omega)]
  · rw [if_neg low]
    by_cases high : addr + first.length ≤ va ∧ va < addr + first.length + second.length
    · rw [if_pos high, if_pos (by omega), List.getD_eq_getElem?_getD,
        List.getD_eq_getElem?_getD, List.getElem?_append_right (by omega),
        show va - (addr + first.length) = va - addr - first.length by omega]
    · rw [if_neg high, if_neg (by omega)]

section Pages

variable {boot : Boot} {s : Kernel} {d : Frame} {extra : Multiset Frame} {v va : Nat}

/-- A store to the frame of a user page. -/
theorem Wf.storePage (wf : Wf boot s d extra) (vLt : v < userPages)
    (here : PteP (pte s.mem d v)) (page : Page) :
    let s' : Kernel := ⟨Function.update s.mem (pteAddr (pte s.mem d v)) page, s.freelist⟩
    (∀ i, tableOf s'.mem d i = tableOf s.mem d i) ∧ (∀ u, pte s'.mem d u = pte s.mem d u) ∧
      total s' d = total s d ∧ Wf boot s' d extra := by
  intro s'
  obtain ⟨notDir, notTable⟩ := wf.page_notTable vLt here
  have tables (i : Nat) : tableOf s'.mem d i = tableOf s.mem d i :=
    tableOf_update page i notDir.symm
  have entries (u : Nat) : pte s'.mem d u = pte s.mem d u :=
    pte_update page u notDir.symm notTable
  have same : total s' d = total s d := by
    unfold total
    rw [owned_congr tables fun u _ => entries u]
  exact ⟨tables, entries, same, wf.congr (by rw [same])⟩

/-- What the process reads after bytes are moved into one of its pages. -/
theorem Wf.userByte_memmove (wf : Wf boot s d extra) (vLt : v < userPages)
    (here : PteP (pte s.mem d v)) {offset : Nat} {bytes : List UInt8}
    (fits : offset + bytes.length ≤ 4096) (vaLt : va / 4096 < userPages) :
    userByte (memmove s.mem (pteAddr (pte s.mem d v)) offset bytes) d va =
      (userByte s.mem d va).map fun byte =>
        if v * 4096 + offset ≤ va ∧ va < v * 4096 + offset + bytes.length then
          bytes.getD (va - (v * 4096 + offset)) 0
        else byte := by
  obtain ⟨-, entries, -⟩ := wf.storePage vLt here fun i =>
    if offset ≤ i.val ∧ i.val < offset + bytes.length then bytes.getD (i.val - offset) 0
    else s.mem (pteAddr (pte s.mem d v)) i
  unfold memmove userByte
  rw [entries]
  split
  · next allowed =>
    rw [Option.map_some]
    congr 1
    by_cases same : va / 4096 = v
    · subst same
      have index : va % 4096 - offset = va - (va / 4096 * 4096 + offset) := by omega
      have inside : (offset ≤ va % 4096 ∧ va % 4096 < offset + bytes.length) ↔
          va / 4096 * 4096 + offset ≤ va ∧
            va < va / 4096 * 4096 + offset + bytes.length := by
        omega
      rw [Function.update_self]
      simp only [pageOffset, inside, index]
    · rw [Function.update_of_ne fun equal =>
        same (wf.page_unique vaLt vLt allowed.1 here equal), if_neg (by omega)]
  · rfl

end Pages

theorem user_of_page {va : Nat} (below : va / 4096 < userPages) : va < kernbase := by
  have size := userPages_eq
  have top : kernbase = 2147483648 := rfl
  omega

/-! ## A space that is being built -/

/-- The kernel's part of an address space. -/
structure KernelPart (boot : Boot) (mem : Memory) (d : Frame) : Prop where
  mapped : ∀ k ∈ kmap boot, ∀ u, userPages ≤ u → k.Covers u → pte mem d u = k.entryOf u
  rest : ∀ u, userPages ≤ u → (∀ k ∈ kmap boot, ¬ k.Covers u) → ¬ PteP (pte mem d u)

/-- The frames of the space, with those that are free now, are the ones that
were free before. -/
structure FromFree (boot : Boot) (s s' : Kernel) (d : Frame) (extra : Multiset Frame) :
    Prop where
  wf : Wf boot s' d extra
  total : total s' d = (s.freelist : Multiset Frame)
  others : ∀ f ∉ s.freelist, s'.mem f = s.mem f

/-- A space with `sz` bytes of user memory that hold this image; only the page
`guard` is not accessible. -/
structure Building (boot : Boot) (s s' : Kernel) (d : Frame) (extra : Multiset Frame)
    (sz : Nat) (guard : Option Nat) (image : Nat → UInt8) : Prop
    extends FromFree boot s s' d extra where
  bound : sz ≤ kernbase
  exactly : PresentBelow s'.mem d (pages sz)
  bytes : ∀ va < pages sz * 4096, userByte s'.mem d va =
    if guard = some (va / 4096) then none else some (image va)
  beyond : ∀ va, pages sz * 4096 ≤ va → image va = 0
  kernel : KernelPart boot s'.mem d

section Steps

variable {boot : Boot} {s s1 : Kernel} {d : Frame} {extra : Multiset Frame} {sz : Nat}
  {guard : Option Nat} {image : Nat → UInt8}

theorem KernelPart.restored {mem mem' : Memory} (part : KernelPart boot mem d)
    (same : ∀ u, userPages ≤ u → present mem' d u = present mem d u) :
    KernelPart boot mem' d := by
  constructor
  · intro k isHere u high covered
    have entries := same u high
    have here : PteP (k.entryOf u) := pteP_rangeEntry _ _ _ _
    unfold present at entries
    rw [part.mapped k isHere u high covered, if_pos here] at entries
    split at entries
    · exact Option.some.inj entries
    · cases entries
  · intro u high uncovered here
    have entries := same u high
    unfold present at entries
    rw [if_pos here, if_neg (part.rest u high uncovered)] at entries
    cases entries

theorem KernelPart.congr {mem mem' : Memory} (part : KernelPart boot mem d)
    (same : ∀ u, userPages ≤ u → pte mem' d u = pte mem d u) : KernelPart boot mem' d := by
  apply part.restored
  intro u high
  unfold present
  rw [same u high]

/-- The space is given up. -/
theorem FromFree.freevm (taken : FromFree boot s s1 d extra) :
    ∃ s2, freevm boot d s1 = .ok (⟨⟩, s2) ∧ SameFrames s s2 := by
  obtain ⟨s2, run, released⟩ := freevm_spec taken.wf
  refine ⟨s2, run, released.free.trans taken.total, ?_⟩
  intro f notFree
  rw [released.others f (by rw [taken.total]; exact notFree)]
  exact taken.others f notFree

theorem FromFree.mem_total (taken : FromFree boot s s1 d extra) {f : Frame} :
    f ∈ Vm.total s1 d ↔ f ∈ s.freelist := by
  rw [taken.total, Multiset.mem_coe]

theorem KernelReady.building (mode : VideoMode boot) (ready : KernelReady boot s s1 d extra) :
    Building boot s s1 d extra 0 none fun _ => 0 := by
  refine ⟨⟨ready.wf, ready.total, ready.others⟩, Nat.zero_le _, ?_, ?_, fun _ _ => rfl,
    fun k isHere u _ => ready.kernel k isHere u, ?_⟩
  · intro v vLt
    rw [ready.rest v fun k isHere => (kmap_valid mode k isHere).not_covers_user vLt]
    exact iff_of_false (by decide) (Nat.not_lt_zero v)
  · intro va below
    exact absurd below (Nat.not_lt_zero va)
  · intro u _ uncovered
    rw [ready.rest u uncovered]
    decide

theorem Building.pages_le (building : Building boot s s1 d extra sz guard image) :
    pages sz ≤ userPages := by
  have size := userPages_eq
  have top : sz ≤ 2147483648 := building.bound
  unfold pages
  omega

/-- The size only counts by pages. -/
theorem Building.resize {sz' : Nat} (building : Building boot s s1 d extra sz guard image)
    (same : pages sz' = pages sz) (bound : sz' ≤ kernbase) :
    Building boot s s1 d extra sz' guard image :=
  { building with
    bound := bound
    exactly := same ▸ building.exactly
    bytes := same ▸ building.bytes
    beyond := same ▸ building.beyond }

/-- Bytes are moved into a page. -/
theorem Building.write (building : Building boot s s1 d extra sz guard image) {va : Nat}
    {bytes : List UInt8} (fits : va % 4096 + bytes.length ≤ 4096)
    (inside : va / 4096 < pages sz) :
    Building boot s
      ⟨memmove s1.mem (pteAddr (pte s1.mem d (va / 4096))) (va % 4096) bytes, s1.freelist⟩
      d extra sz guard (overlay image va bytes) := by
  have few := building.pages_le
  have vLt : va / 4096 < userPages := by omega
  have here := (building.exactly _ vLt).mpr inside
  obtain ⟨-, entries, same, wf⟩ := building.wf.storePage vLt here fun i =>
    if va % 4096 ≤ i.val ∧ i.val < va % 4096 + bytes.length then
      bytes.getD (i.val - va % 4096) 0
    else s1.mem (pteAddr (pte s1.mem d (va / 4096))) i
  have base : va / 4096 * 4096 + va % 4096 = va := Nat.div_add_mod' va 4096
  refine ⟨⟨wf, same.trans building.total, ?_⟩, building.bound, ?_, ?_, ?_,
    building.kernel.congr fun u _ => entries u⟩
  · intro f notFree
    refine (Function.update_of_ne ?_ _ _).trans (building.others f notFree)
    rintro rfl
    exact notFree (building.mem_total.mp
      (mem_total.mpr (.inl (mem_owned.mpr (.inr (.inr ⟨_, vLt, here, rfl⟩))))))
  · intro v below
    rw [← building.exactly v below]
    exact iff_of_eq (congrArg PteP (entries v))
  · intro a below
    change userByte (memmove _ _ _ _) d a = _
    rw [building.wf.userByte_memmove vLt here fits (by omega), building.bytes a below, base]
    by_cases hidden : guard = some (a / 4096)
    · rw [if_pos hidden, if_pos hidden]
      rfl
    · rw [if_neg hidden, if_neg hidden]
      rfl
  · intro a high
    rw [overlay, if_neg (by omega)]
    exact building.beyond a high

/-- `allocuvm` adds zeros, or the space is as before. -/
theorem Building.allocuvm (building : Building boot s s1 d extra sz none image)
    (newsz : Nat) :
    (∃ s2, Vm.allocuvm boot d sz newsz s1 = .ok (0, s2) ∧ FromFree boot s s2 d extra) ∨
      newsz < kernbase ∧ ∃ s2, Vm.allocuvm boot d sz newsz s1 = .ok (max sz newsz, s2) ∧
        Building boot s s2 d extra (max sz newsz) none image := by
  by_cases high : newsz ≥ kernbase
  · refine .inl ⟨s1, ?_, building.toFromFree⟩
    simp only [Vm.allocuvm, if_apply, pure_apply, if_pos high]
  by_cases less : newsz < sz
  · refine .inr ⟨Nat.lt_of_not_le high, s1, ?_, ?_⟩
    · simp only [Vm.allocuvm, if_apply, pure_apply, if_neg high, if_pos less,
        max_eq_left less.le]
    · rw [max_eq_left less.le]
      exact building
  · replace high : newsz < 2147483648 := Nat.lt_of_not_le high
    have kept {s2 : Kernel} (kept : Kept s1 s2 d) : FromFree boot s s2 d extra := by
      refine ⟨building.wf.congr (by rw [kept.total]), kept.total.trans building.total, ?_⟩
      intro f notFree
      rw [kept.others f fun isHere => notFree (building.mem_total.mp isHere)]
      exact building.others f notFree
    have more : pages sz ≤ pages newsz := by
      unfold pages
      omega
    have few : pages newsz ≤ userPages := by
      have size := userPages_eq
      unfold pages
      omega
    rw [max_eq_right (Nat.le_of_not_lt less)]
    rcases allocuvm_spec building.wf building.exactly.vacant (Nat.le_of_not_lt less)
      high with ⟨-, s2, run, growing⟩ | ⟨-, s2, run, restored⟩
    · refine .inr ⟨high, s2, run, kept growing.kept, high.le,
        growing.presentBelow more building.exactly, ?_, ?_, ?_⟩
      · intro va below
        rw [if_neg (Option.some_ne_none _).symm]
        by_cases old : va / 4096 < pages sz
        · have before := building.bytes va ((Nat.div_lt_iff_lt_mul (by decide)).mp old)
          rw [if_neg (Option.some_ne_none _).symm] at before
          rw [← before]
          exact growing.kept.userByte (user_of_page (old.trans_le (more.trans few)))
            (present_congr (growing.outside _ (.inl old)))
        · rw [growing.userByte_zero (by omega) (by omega), building.beyond va (by omega)]
      · intro va above
        exact building.beyond va ((Nat.mul_le_mul_right 4096 more).trans above)
      · refine building.kernel.congr ?_
        intro u above
        exact growing.outside u (.inr (few.trans above))
    · exact .inl ⟨s2, run, kept restored.kept⟩

/-- The loop of `loaduvm` stops at the end of the file, or lays the bytes of the
segment over the image. -/
theorem Building.loaduvmLoop {file : List UInt8} {addr off filesz i fuel : Nat}
    (building : Building boot s s1 d extra sz none
      (overlay image addr ((file.drop off).take (min i filesz))))
    (aligned : addr % 4096 = 0) (inside : addr + filesz ≤ sz) (page : i % 4096 = 0)
    (small : i < filesz → off + i < 4294967296)
    (read : i = 0 ∨ off + min i filesz ≤ file.length)
    (enough : (filesz - i + 4095) / 4096 < fuel) :
    (∃ s2, Vm.loaduvmLoop d addr file off filesz fuel i s1 = .ok (-1, s2) ∧
        FromFree boot s s2 d extra) ∨
      ∃ s2, Vm.loaduvmLoop d addr file off filesz fuel i s1 = .ok (0, s2) ∧
        Building boot s s2 d extra sz none
          (overlay image addr ((file.drop off).take filesz)) ∧
        (filesz = 0 ∨ off + filesz ≤ file.length) := by
  induction fuel generalizing s1 i with
  | zero => omega
  | succ fuel ih =>
      have top : sz ≤ 2147483648 := building.bound
      by_cases more : i < filesz
      · rw [min_eq_left more.le] at building read
        have vLt : (addr + i) / 4096 < pages sz := by
          unfold pages
          omega
        have few := building.pages_le
        have here := (building.exactly _ (by omega)).mpr vLt
        obtain ⟨t, found⟩ := exists_table here
        have walk : walkpgdir s1.mem d (addr + i) = some (t, (addr + i) / 4096 % 1024) := by
          rw [walkpgdir_page s1.mem d (by omega), found]
          rfl
        have entry : entry s1.mem t ((addr + i) / 4096 % 1024) =
            pte s1.mem d ((addr + i) / 4096) := by
          rw [pte, found]
        generalize size : (if filesz - i < 4096 then filesz - i else 4096) = n
        have fits : n ≤ 4096 ∧ 0 < n ∧ min (i + 4096) filesz = i + n := by
          split at size <;> omega
        have wrote := fun bytes fits => @Building.write boot s s1 d extra sz none _ building
          (addr + i) bytes fits vLt
        simp only [Vm.loaduvmLoop, if_apply, bind_apply, get_apply, if_pos more,
          Nat.mod_eq_of_lt (by omega : addr + i < 4294967296), walk, entry, size,
          modify_apply, pure_apply, Nat.mod_eq_of_lt (small more),
          Nat.mod_eq_of_lt (by omega : i + 4096 < 4294967296)]
        have apart : (addr + i) % 4096 = 0 := by omega
        rw [apart] at wrote
        rw [readi]
        by_cases refused : file.length < off + i ∨ 2 ^ 32 ≤ off + i + n
        · have differ : (-1 : Int) ≠ n := by omega
          refine .inl ⟨_, ?_, (wrote [] (by simp)).toFromFree⟩
          rw [if_pos refused, if_pos differ]
        · rw [if_neg refused]
          generalize bytesEq : (file.drop (off + i)).take n = bytes
          have length : bytes.length = min n (file.length - (off + i)) := by
            rw [← bytesEq, List.length_take, List.length_drop]
          have written := wrote bytes (by omega)
          by_cases short : (bytes.length : Int) ≠ n
          · refine .inl ⟨_, ?_, written.toFromFree⟩
            simp only [if_pos short]
          · have taken : (file.drop off).take i ++ bytes =
                (file.drop off).take (min (i + 4096) filesz) := by
              rw [fits.2.2, List.take_add, List.drop_drop, bytesEq]
            have before : ((file.drop off).take i).length = i := by
              rw [List.length_take, List.length_drop]
              omega
            have laid := overlay_append image addr ((file.drop off).take i) bytes
            rw [before] at laid
            rw [laid, taken] at written
            simp only [if_neg short]
            exact ih written (by omega) (by omega) (.inr (by omega)) (by omega)
      · refine .inr ⟨s1, ?_, ?_, ?_⟩
        · simp only [Vm.loaduvmLoop, if_apply, pure_apply, if_neg more]
        · rw [min_eq_right (Nat.le_of_not_lt more)] at building
          exact building
        · rcases read with rfl | fits
          · exact .inl (by omega)
          · rw [min_eq_right (Nat.le_of_not_lt more)] at fits
            exact .inr fits

/-- `loaduvm` stops at the end of the file, or lays the bytes of the segment over
the image. -/
theorem Building.loaduvm (file : List UInt8) {addr off : Nat} (filesz : Nat)
    (building : Building boot s s1 d extra sz none image) (aligned : addr % 4096 = 0)
    (inside : addr + filesz ≤ sz) (small : off < 4294967296) :
    (∃ s2, Vm.loaduvm d addr file off filesz s1 = .ok (-1, s2) ∧
        FromFree boot s s2 d extra) ∨
      ∃ s2, Vm.loaduvm d addr file off filesz s1 = .ok (0, s2) ∧
        Building boot s s2 d extra sz none
          (overlay image addr ((file.drop off).take filesz)) ∧
        (filesz = 0 ∨ off + filesz ≤ file.length) := by
  have top : sz ≤ 2147483648 := building.bound
  have unfolded : Vm.loaduvm d addr file off filesz s1 =
      Vm.loaduvmLoop d addr file off filesz 1048577 0 s1 := by
    simp only [Vm.loaduvm, aligned, ne_eq, not_true_eq_false, if_false]
  rw [unfolded]
  have start : Building boot s s1 d extra sz none
      (overlay image addr ((file.drop off).take (min 0 filesz))) := by
    rw [Nat.zero_min, List.take_zero, overlay_nil]
    exact building
  exact start.loaduvmLoop aligned inside (Nat.zero_mod _) (fun _ => small) (.inl rfl)
    (by omega)

theorem pte_lt (mem : Memory) (d : Frame) (v : Nat) : pte mem d v < 4294967296 := by
  unfold pte
  split
  · exact entry_lt _ _ _
  · decide

/-- An entry without `PTE_U`. -/
theorem clear_user {e : Nat} (small : e < 4294967296) :
    (e &&& 0xFFFFFFFB) % 4294967296 = e &&& 0xFFFFFFFB ∧
      pteAddr (e &&& 0xFFFFFFFB) = pteAddr e ∧
      (PteP (e &&& 0xFFFFFFFB) ↔ PteP e) ∧ ¬ PteU (e &&& 0xFFFFFFFB) := by
  have high : (e &&& 0xFFFFFFFB) / 8 = e / 8 := by
    have cut := Nat.and_two_pow_sub_one_eq_mod (e / 8) 29
    rw [Nat.mod_eq_of_lt (by omega)] at cut
    rw [← Nat.shiftRight_eq_div_pow _ 3, Nat.shiftRight_and_distrib,
      Nat.shiftRight_eq_div_pow e 3]
    exact cut
  have low : (e &&& 0xFFFFFFFB) % 8 = e % 8 &&& 3 := Nat.and_mod_two_pow (n := 3)
  have flags : e % 8 &&& 3 = e % 8 % 4 := Nat.and_two_pow_sub_one_eq_mod (e % 8) 2
  rw [flags] at low
  generalize e &&& 0xFFFFFFFB = cleared at high low
  have frame : cleared / 4096 = e / 4096 := by omega
  unfold PteP PteU
  exact ⟨by omega, frame, by omega, by omega⟩

/-- `clearpteu` hides a page. -/
theorem Building.clearpteu {v : Nat} (building : Building boot s s1 d extra sz none image)
    (inside : v < pages sz) :
    ∃ s2, Vm.clearpteu d (v * 4096) s1 = .ok (⟨⟩, s2) ∧
      Building boot s s2 d extra sz (some v) image := by
  have few := building.pages_le
  have size := userPages_eq
  have vLt : v < userPages := by omega
  have here := (building.exactly v vLt).mpr inside
  obtain ⟨t, found⟩ := exists_table here
  have walk : walkpgdir s1.mem d (v * 4096) = some (t, v % 1024) := by
    rw [walkpgdir_page s1.mem d (by omega), Nat.mul_div_cancel v (by decide), found]
    rfl
  have entryEq : entry s1.mem t (v % 1024) = pte s1.mem d v := by
    rw [pte, found]
  generalize value : pte s1.mem d v &&& 0xFFFFFFFB = cleared
  have run : Vm.clearpteu d (v * 4096) s1 =
      .ok (⟨⟩, ⟨setEntry s1.mem t (v % 1024) cleared, s1.freelist⟩) := by
    simp only [Vm.clearpteu, bind_apply, get_apply, walk, storeEntry, modify_apply, entryEq,
      value]
  obtain ⟨fits, frame, isHere, notUser⟩ := clear_user (pte_lt s1.mem d v)
  rw [value] at fits frame isHere notUser
  have tables (i : Nat) : tableOf (setEntry s1.mem t (v % 1024) cleared) d i =
      tableOf s1.mem d i :=
    tableOf_setEntry cleared i fun same => building.wf.notSelf _ (found.trans (same ▸ rfl))
  have entries (u : Nat) : pte (setEntry s1.mem t (v % 1024) cleared) d u =
      if u = v then cleared else pte s1.mem d u := by
    rw [pte_setEntry cleared u building.wf.notSelf building.wf.distinct found
      (Nat.mod_lt _ (by decide)), Nat.div_add_mod' v 1024, fits]
  have bag : pageBag (setEntry s1.mem t (v % 1024) cleared) d v = pageBag s1.mem d v := by
    unfold pageBag
    rw [entries, if_pos rfl, frame, if_pos here, if_pos (isHere.mpr here)]
  have same : total ⟨setEntry s1.mem t (v % 1024) cleared, s1.freelist⟩ d = total s1 d := by
    have change := owned_change_page vLt tables fun u _ other =>
      (entries u).trans (if_neg other)
    rw [bag] at change
    unfold total
    rw [add_right_cancel change]
  refine ⟨_, run, ⟨building.wf.congr (by rw [same]), same.trans building.total, ?_⟩,
    building.bound, ?_, ?_, building.beyond, building.kernel.congr ?_⟩
  · intro f notFree
    refine (Function.update_of_ne ?_ _ _).trans (building.others f notFree)
    rintro rfl
    exact notFree (building.mem_total.mp
      (mem_total.mpr (.inl (mem_owned.mpr (.inr (.inl ⟨_, found⟩))))))
  · intro u below
    rw [← building.exactly u below, entries]
    split
    · next isSame => rw [isSame, isHere]
    · rfl
  · intro va below
    have read := building.bytes va below
    rw [if_neg (Option.some_ne_none _).symm] at read
    rw [← read]
    unfold userByte
    rw [entries]
    by_cases hidden : va / 4096 = v
    · rw [if_pos hidden, if_pos (congrArg some hidden.symm), if_neg fun both => notUser both.2]
    · rw [if_neg hidden, if_neg fun equal => hidden (Option.some.inj equal).symm]
      split
      · next both =>
        have vaLt : va / 4096 < userPages := by omega
        have notTable := (building.wf.page_notTable vaLt both.1).2
        have kept : setEntry s1.mem t (v % 1024) cleared (pteAddr (pte s1.mem d (va / 4096))) =
            s1.mem (pteAddr (pte s1.mem d (va / 4096))) :=
          Function.update_of_ne (fun equal => notTable _ (equal ▸ found)) _ _
        exact congrArg some (congrFun kept _)
      · rfl
  · intro u high
    rw [entries, if_neg (by omega)]

end Steps

/-! ## The segments -/

/-- The program headers of the segments that are loaded. -/
def segments (file : List UInt8) : Nat → Nat → List Proghdr
  | 0, _ => []
  | phnum + 1, off =>
      let ph := proghdr (readi file off 32).2
      let rest := segments file phnum ((off + 32) % 4294967296)
      if ph.type ≠ elfProgLoad then rest else ph :: rest

/-- The bytes of a segment in the file. -/
def segmentBytes (file : List UInt8) (ph : Proghdr) : List UInt8 :=
  (file.drop ph.off).take ph.filesz

/-- The segments are laid over the image, the first one first. -/
def layout (file : List UInt8) (image : Nat → UInt8) (segs : List Proghdr) : Nat → UInt8 :=
  segs.foldl (fun image ph => overlay image ph.vaddr (segmentBytes file ph)) image

/-- The size that covers the segments. -/
def covering (sz : Nat) (segs : List Proghdr) : Nat :=
  segs.foldl (fun sz ph => max sz (ph.vaddr + ph.memsz)) sz

/-- A segment that is loaded lies in the file and in the memory. -/
structure Fits (file : List UInt8) (sz : Nat) (ph : Proghdr) : Prop where
  aligned : ph.vaddr % 4096 = 0
  shorter : ph.filesz ≤ ph.memsz
  memory : ph.vaddr + ph.memsz ≤ sz
  file : ph.filesz = 0 ∨ ph.off + ph.filesz ≤ file.length

theorem le_covering (sz : Nat) (segs : List Proghdr) : sz ≤ covering sz segs := by
  induction segs generalizing sz with
  | nil => exact Nat.le_refl sz
  | cons ph segs ih => exact (Nat.le_max_left _ _).trans (ih _)

theorem word_lt (bytes : List UInt8) (i : Nat) : word bytes i < 4294967296 := by
  have first := (bytes.getD i 0).toNat_lt
  have second := (bytes.getD (i + 1) 0).toNat_lt
  have third := (bytes.getD (i + 2) 0).toNat_lt
  have fourth := (bytes.getD (i + 3) 0).toNat_lt
  unfold word
  omega

section Segments

variable {boot : Boot} {s s1 : Kernel} {d : Frame} {extra : Multiset Frame} {sz : Nat}
  {image : Nat → UInt8}

/-- The loop over the program headers gives up the space, or it loads every
segment. -/
theorem Building.loadSegments (file : List UInt8) (phnum off : Nat)
    (building : Building boot s s1 d extra sz none image) :
    (∃ s2, Vm.loadSegments boot d file phnum off sz s1 = .ok (none, s2) ∧
        FromFree boot s s2 d extra) ∨
      ∃ s2, Vm.loadSegments boot d file phnum off sz s1 =
          .ok (some (covering sz (segments file phnum off)), s2) ∧
        Building boot s s2 d extra (covering sz (segments file phnum off)) none
          (layout file image (segments file phnum off)) ∧
        ∀ ph ∈ segments file phnum off, Fits file (covering sz (segments file phnum off)) ph := by
  induction phnum generalizing s1 off sz image with
  | zero =>
      refine .inr ⟨s1, rfl, building, ?_⟩
      intro ph isHere
      cases isHere
  | succ phnum ih =>
      generalize phEq : proghdr (readi file off 32).2 = ph
      generalize nextEq : (off + 32) % 4294967296 = next
      have head : segments file (phnum + 1) off =
          if ph.type ≠ elfProgLoad then segments file phnum next
          else ph :: segments file phnum next := by
        rw [segments, phEq, nextEq]
      obtain ⟨offLt, vaddrLt, memszLt⟩ :
          ph.off < 4294967296 ∧ ph.vaddr < 4294967296 ∧ ph.memsz < 4294967296 := by
        rw [← phEq]
        exact ⟨word_lt _ _, word_lt _ _, word_lt _ _⟩
      unfold Vm.loadSegments
      simp only [phEq, nextEq, if_apply, pure_apply]
      by_cases short : (readi file off 32).1 ≠ 32
      · exact .inl ⟨s1, if_pos short, building.toFromFree⟩
      rw [if_neg short]
      by_cases other : ph.type ≠ elfProgLoad
      · rw [if_pos other] at head
        rw [if_pos other, head]
        exact ih next building
      rw [if_neg other] at head
      rw [if_neg other, head]
      by_cases more : ph.memsz < ph.filesz
      · exact .inl ⟨s1, if_pos more, building.toFromFree⟩
      rw [if_neg more]
      by_cases wraps : (ph.vaddr + ph.memsz) % 4294967296 < ph.vaddr
      · exact .inl ⟨s1, if_pos wraps, building.toFromFree⟩
      have sum : (ph.vaddr + ph.memsz) % 4294967296 = ph.vaddr + ph.memsz := by omega
      rw [if_neg wraps, bind_apply, sum]
      rcases building.allocuvm (ph.vaddr + ph.memsz) with
        ⟨s2, run, taken⟩ | ⟨-, s2, run, grown⟩
      · refine .inl ⟨s2, ?_, taken⟩
        rw [run]
        rfl
      · rw [run]
        generalize sizeEq : max sz (ph.vaddr + ph.memsz) = size at grown
        simp only [if_apply, pure_apply, bind_apply]
        by_cases empty : size = 0
        · exact .inl ⟨s2, if_pos empty, grown.toFromFree⟩
        rw [if_neg empty]
        by_cases unaligned : ph.vaddr % 4096 ≠ 0
        · exact .inl ⟨s2, if_pos unaligned, grown.toFromFree⟩
        rw [if_neg unaligned]
        rcases grown.loaduvm file ph.filesz (Decidable.not_not.mp unaligned)
          (by omega) offLt with ⟨s3, run, taken⟩ | ⟨s3, run, loaded, inFile⟩
        · refine .inl ⟨s3, ?_, taken⟩
          rw [run]
          rfl
        · rw [run]
          simp only [Int.lt_irrefl, if_false]
          have tail : covering sz (ph :: segments file phnum next) =
              covering size (segments file phnum next) := by
            rw [covering, List.foldl_cons, sizeEq]
            rfl
          rw [tail]
          rcases ih next loaded with ⟨s4, run, taken⟩ | ⟨s4, run, done, fits⟩
          · exact .inl ⟨s4, run, taken⟩
          · refine .inr ⟨s4, run, done, ?_⟩
            intro seg isHere
            rcases List.mem_cons.mp isHere with rfl | later
            · have enough := le_covering size (segments file phnum next)
              exact ⟨Decidable.not_not.mp unaligned, Nat.le_of_not_lt more, by omega, inFile⟩
            · exact fits seg later

end Segments

/-! ## The image -/

/-- The segments that the header of the file leads to. -/
def programSegments (file : List UInt8) : List Proghdr :=
  segments file (elfhdr (file.take 52)).phnum (elfhdr (file.take 52)).phoff

/-- The pages that hold the segments. -/
def imagePages (file : List UInt8) : Nat := pages (covering 0 (programSegments file))

/-- What `exec` has built before it pushes the arguments: the segments over
zeros, a page that is not accessible, and a page of zeros for the stack. -/
structure Loaded (boot : Boot) (s s' : Kernel) (d : Frame) (extra : Multiset Frame)
    (file : List UInt8) (sz entry : Nat) : Prop where
  header : 52 ≤ file.length ∧ (elfhdr (file.take 52)).magic = elfMagic
  entry : entry = (elfhdr (file.take 52)).entry
  size : sz = (imagePages file + 2) * 4096
  below : sz < kernbase
  fits : ∀ ph ∈ programSegments file, Fits file (covering 0 (programSegments file)) ph
  space : Building boot s s' d extra sz (some (imagePages file))
    (layout file (fun _ => 0) (programSegments file))

section Image

variable {boot : Boot} {s s1 : Kernel} {d : Frame} {extra : Multiset Frame}

theorem readi_header (file : List UInt8) :
    (readi file 0 52).1 = 52 ↔ 52 ≤ file.length := by
  unfold readi
  rw [if_neg (by omega)]
  simp only [List.drop_zero, List.length_take]
  omega

theorem readi_header_bytes (file : List UInt8) : (readi file 0 52).2 = file.take 52 := by
  unfold readi
  rw [if_neg (by omega), List.drop_zero]

theorem pages_mul (n : Nat) : pages (n * 4096) = n := by
  unfold pages
  omega

theorem pgroundup_page {sz : Nat} (bound : sz ≤ kernbase) :
    pgroundup sz = pages sz * 4096 := by
  have top : sz ≤ 2147483648 := bound
  unfold pgroundup pages
  omega

/-- Whatever the file holds, `exec` builds its image or gives every frame back. -/
theorem loadImage_spec (mode : VideoMode boot) (wf : FreeWf boot s extra)
    (file : List UInt8) :
    (∃ s', loadImage boot file s = .ok (none, s') ∧ SameFrames s s') ∨
      ∃ d sz entry s', loadImage boot file s = .ok (some (d, sz, entry), s') ∧
        Loaded boot s s' d extra file sz entry := by
  unfold loadImage
  simp only [if_apply, pure_apply, readi_header_bytes]
  by_cases short : (readi file 0 52).1 ≠ 52
  · exact .inl ⟨s, if_pos short, rfl, fun _ _ => rfl⟩
  rw [if_neg short]
  by_cases wrong : (elfhdr (file.take 52)).magic ≠ elfMagic
  · exact .inl ⟨s, if_pos wrong, rfl, fun _ _ => rfl⟩
  rw [if_neg wrong, bind_apply]
  rcases setupkvm_spec mode wf with ⟨-, d, s1, run, ready⟩ | ⟨-, s1, run, same⟩
  · rw [run]
    simp only [bind_apply]
    rcases (ready.building mode).loadSegments file (elfhdr (file.take 52)).phnum
      (elfhdr (file.take 52)).phoff with ⟨s2, run, taken⟩ | ⟨s2, run, loaded, fits⟩
    · obtain ⟨s3, freed, same⟩ := taken.freevm
      refine .inl ⟨s3, ?_, same⟩
      rw [run]
      simp only [bind_apply, freed, pure_apply]
    · rw [run]
      change Building boot s s2 d extra (covering 0 (programSegments file)) none
        (layout file (fun _ => 0) (programSegments file)) at loaded
      generalize count : imagePages file = n
      have rounded : pgroundup (covering 0 (programSegments file)) = n * 4096 :=
        count ▸ pgroundup_page loaded.bound
      have few : n ≤ userPages := count ▸ loaded.pages_le
      rw [userPages_eq] at few
      have whole : Building boot s s2 d extra (n * 4096) none
          (layout file (fun _ => 0) (programSegments file)) :=
        loaded.resize (pages_mul n |>.trans count.symm) (by unfold kernbase; omega)
      have sum : (n * 4096 + 2 * 4096) % 4294967296 = (n + 2) * 4096 := by omega
      have larger : max (n * 4096) ((n + 2) * 4096) = (n + 2) * 4096 := by omega
      have covered : covering 0 (segments file (elfhdr (file.take 52)).phnum
          (elfhdr (file.take 52)).phoff) = covering 0 (programSegments file) := rfl
      simp only [covered, rounded, sum]
      rcases whole.allocuvm ((n + 2) * 4096) with ⟨s3, run, taken⟩ | ⟨below, s3, run, grown⟩
      · obtain ⟨s4, freed, same⟩ := taken.freevm
        refine .inl ⟨s4, ?_, same⟩
        rw [bind_of_ok run, if_pos rfl, bind_of_ok freed, pure_apply]
      · rw [larger] at run grown
        obtain ⟨s4, cleared, guarded⟩ := grown.clearpteu (v := n) (by rw [pages_mul]; omega)
        have hidden : ((n + 2) * 4096 + 4294967296 - 2 * 4096) % 4294967296 = n * 4096 := by
          omega
        have some : (n + 2) * 4096 ≠ 0 := by omega
        refine .inr ⟨d, (n + 2) * 4096, _, s4, ?_,
          ⟨(readi_header file).mp (Decidable.not_not.mp short), Decidable.not_not.mp wrong⟩, rfl,
          by rw [count], below, fits, ?_⟩
        · rw [bind_of_ok run, if_neg some, hidden, bind_of_ok cleared, pure_apply]
        · rw [count]
          exact guarded
  · refine .inl ⟨s1, ?_, same⟩
    rw [run]
    rfl

end Image

end Xv6.Vm
