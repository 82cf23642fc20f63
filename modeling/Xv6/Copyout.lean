import Xv6.PageTable

/-!
# Copying to user addresses

`uva2ka` reads the entry that `walkpgdir` finds without testing for the null
pointer, so where the directory has no table it reads the word at address zero
of the current address space.  `copyout` is safe exactly when the page at which
it stops, if there is one, has a table.
-/

namespace Xv6

open ByteFields

/-- The word at address zero of the current address space; `none` is a page
fault in the kernel. -/
def loadZero (mem : Memory) (cur : Frame) : Option Nat :=
  match pteOf mem cur 0 with
  | some pte => if PteP pte then some (getWord (mem (pteAddr pte)) 0) else none
  | none => none

/-- The entry that `uva2ka` reads. -/
def uva2kaPte (cur : Frame) (mem : Memory) (pgdir : Frame) (uva : Nat) :
    Option Nat :=
  match walkpgdir mem pgdir uva with
  | some (table, i) => some (entry mem table i)
  | none => loadZero mem cur

/-- `uva2ka`: the frame, or zero; `none` is a page fault. -/
def uva2ka (cur : Frame) (mem : Memory) (pgdir : Frame) (uva : Nat) :
    Option (Option Frame) :=
  (uva2kaPte cur mem pgdir uva).map fun pte =>
    if ¬ PteP pte then none
    else if ¬ PteU pte then none
    else some (pteAddr pte)

/-- `memmove` into one frame. -/
def memmove (mem : Memory) (f : Frame) (offset : Nat) (bytes : List UInt8) :
    Memory :=
  Function.update mem f fun i =>
    if offset ≤ i.val ∧ i.val < offset + bytes.length then
      bytes.getD (i.val - offset) 0
    else mem f i

/-- What a call of `copyout` leaves: the memory, the value returned (`none`
after a page fault) and whether an entry was read through a null pointer. -/
structure CopyoutResult where
  mem : Memory
  result : Option Int
  nullRead : Bool

/-- `copyout`; `cur` is the directory in use and `buf` holds `len` bytes. -/
def copyout (cur pgdir : Frame) (mem : Memory) (va : Nat) (buf : List UInt8) :
    CopyoutResult :=
  if buf = [] then ⟨mem, some 0, false⟩
  else
    let va0 := va / 4096 * 4096
    let null := (walkpgdir mem pgdir va0).isNone
    match uva2ka cur mem pgdir va0 with
    | none => ⟨mem, none, null⟩
    | some none => ⟨mem, some (-1), null⟩
    | some (some pa0) =>
        let n := min (4096 - (va - va0)) buf.length
        let rest := copyout cur pgdir (memmove mem pa0 (va - va0) (buf.take n))
          ((va0 + 4096) % 4294967296) (buf.drop n)
        { rest with nullRead := null || rest.nullRead }
termination_by buf.length
decreasing_by
  have positive : 0 < buf.length := List.length_pos_iff.mpr (by assumption)
  rw [List.length_drop]
  omega

/-! ## What the call is for -/

/-- Store one byte at a user address, as the directory maps it. -/
def storeByte (tables : Memory) (pgdir : Frame) (mem : Memory) (va : Nat)
    (byte : UInt8) : Memory :=
  memmove mem (pteAddr ((pteOf tables pgdir va).getD 0)) (va % 4096) [byte]

/-- Store bytes at consecutive user addresses, modulo the address size. -/
def storeBytes (tables : Memory) (pgdir : Frame) :
    Memory → Nat → List UInt8 → Memory
  | mem, _, [] => mem
  | mem, va, byte :: bytes =>
      storeBytes tables pgdir (storeByte tables pgdir mem va byte)
        ((va + 1) % 4294967296) bytes

/-- The `k`-th address of a range. -/
def nth (va k : Nat) : Nat :=
  (va + k) % 4294967296

/-- Every page of the range is present and accessible to the user. -/
def AllMapped (mem : Memory) (pgdir : Frame) (va len : Nat) : Prop :=
  ∀ k < len, UserMapped mem pgdir (nth va k)

/-- A frame that some user address maps to. -/
def UserFrame (mem : Memory) (pgdir f : Frame) : Prop :=
  ∃ va, UserMapped mem pgdir va ∧
    f = pteAddr ((pteOf mem pgdir va).getD 0)

/-- The contract of `copyout`: no entry is read through a null pointer; it
returns zero exactly when every page of the range is mapped, and has then
stored the bytes and nothing else; otherwise it returns -1 and has written only
to frames that the user has mapped. -/
def DeliversSafely (cur pgdir : Frame) (mem : Memory) (va : Nat)
    (buf : List UInt8) : Prop :=
  let call := copyout cur pgdir mem va buf
  call.nullRead = false ∧
    (call.result = some 0 ↔ AllMapped mem pgdir va buf.length) ∧
    (AllMapped mem pgdir va buf.length →
      call.mem = storeBytes mem pgdir mem va buf) ∧
    (¬ AllMapped mem pgdir va buf.length → call.result = some (-1) ∧
      ∀ f, ¬ UserFrame mem pgdir f → call.mem f = mem f)

/-- The page at which the range stops being mapped has a table. -/
def StopsAtTable (mem : Memory) (pgdir : Frame) (va len : Nat) : Prop :=
  ∀ k < len, AllMapped mem pgdir va k → HasTable mem pgdir (nth va k)

/-- An address space: user pages are neither its directory nor its tables. -/
structure AddressSpace where
  mem : Memory
  pgdir : Frame
  separate : ∀ f, UserFrame mem pgdir f → ¬ IsTableFrame mem pgdir f

/-! ## One page -/

theorem memmove_memmove_next (mem : Memory) (f : Frame) (offset : Nat)
    (byte : UInt8) (bytes : List UInt8) :
    memmove (memmove mem f offset [byte]) f (offset + 1) bytes =
      memmove mem f offset (byte :: bytes) := by
  unfold memmove
  rw [Function.update_idem]
  congr 1
  funext i
  rw [Function.update_self]
  simp only [List.length_cons, List.length_nil]
  rcases Nat.lt_trichotomy i.val offset with below | here | above
  · rw [if_neg (by omega), if_neg (by omega), if_neg (by omega)]
  · rw [if_neg (by omega), if_pos (by omega), if_pos (by omega)]
    simp [here]
  · by_cases inside : i.val < offset + 1 + bytes.length
    · rw [if_pos (by omega), if_pos (by omega),
        show i.val - offset = (i.val - (offset + 1)) + 1 by omega]
      rfl
    · rw [if_neg (by omega), if_neg (by omega), if_neg (by omega)]

theorem memmove_nil (mem : Memory) (f : Frame) (offset : Nat) :
    memmove mem f offset [] = mem := by
  unfold memmove
  rw [Function.update_eq_self_iff]
  funext i
  rw [if_neg (by simp only [List.length_nil]; omega)]

/-- The bytes stored in one page are one `memmove`. -/
theorem storeBytes_page {tables : Memory} {pgdir : Frame} {mem : Memory}
    {va : Nat} {bytes : List UInt8} (bound : va < 4294967296)
    (room : va % 4096 + bytes.length ≤ 4096) :
    storeBytes tables pgdir mem va bytes =
      memmove mem (pteAddr ((pteOf tables pgdir va).getD 0)) (va % 4096)
        bytes := by
  induction bytes generalizing mem va with
  | nil => exact (memmove_nil _ _ _).symm
  | cons byte bytes ih =>
      rw [List.length_cons] at room
      rw [storeBytes]
      cases bytes with
      | nil => rfl
      | cons next rest =>
          rw [List.length_cons] at room
          have small : (va + 1) % 4294967296 = va + 1 :=
            Nat.mod_eq_of_lt (by omega)
          have samePage : (va + 1) / 4096 = va / 4096 := by omega
          have nextOffset : (va + 1) % 4096 = va % 4096 + 1 := by omega
          rw [small, ih (by omega) (by rw [List.length_cons]; omega),
            pteOf_congr samePage, nextOffset]
          exact memmove_memmove_next _ _ _ _ _

theorem storeBytes_append {tables : Memory} {pgdir : Frame} {mem : Memory}
    {va : Nat} {first second : List UInt8} :
    storeBytes tables pgdir mem va (first ++ second) =
      storeBytes tables pgdir (storeBytes tables pgdir mem va first)
        (if first = [] then va else nth va first.length) second := by
  induction first generalizing mem va with
  | nil => rfl
  | cons byte bytes ih =>
      rw [List.cons_append, storeBytes, storeBytes, ih]
      cases bytes with
      | nil => rfl
      | cons next rest =>
          simp only [List.length_cons, nth, reduceCtorEq, if_false]
          congr 1
          omega

/-! ## The loop -/

variable {cur pgdir : Frame} {tables mem : Memory} {va : Nat}
  {buf : List UInt8}

theorem copyout_nil : copyout cur pgdir mem va [] = ⟨mem, some 0, false⟩ := by
  rw [copyout, if_pos rfl]

/-- The addresses of the first page of a range. -/
theorem nth_page (bound : va < 4294967296) {k : Nat}
    (inside : va % 4096 + k < 4096) :
    nth va k / 4096 = va / 4096 := by
  unfold nth
  rw [Nat.mod_eq_of_lt (by omega)]
  omega

theorem base_page (va : Nat) : va / 4096 * 4096 / 4096 = va / 4096 :=
  Nat.mul_div_cancel _ (by omega)

/-- When the first page has no table the null pointer is read. -/
theorem copyout_of_no_table (same : SameTables tables mem pgdir)
    (notEmpty : buf ≠ []) (missing : ¬ HasTable tables pgdir va) :
    (copyout cur pgdir mem va buf).nullRead = true := by
  have null : walkpgdir mem pgdir (va / 4096 * 4096) = none := by
    have absent : ¬ HasTable mem pgdir (va / 4096 * 4096) := by
      rwa [hasTable_congr (base_page va), same.hasTable]
    unfold HasTable at absent
    rw [walkpgdir, if_neg absent]
  rw [copyout, if_neg notEmpty]
  simp only [null, Option.isNone_none]
  split <;> simp

/-- When the first page has a table but is not mapped the call fails. -/
theorem copyout_of_not_mapped (same : SameTables tables mem pgdir)
    (notEmpty : buf ≠ []) (table : HasTable tables pgdir va)
    (unmapped : ¬ UserMapped tables pgdir va) :
    copyout cur pgdir mem va buf = ⟨mem, some (-1), false⟩ := by
  have present : HasTable mem pgdir (va / 4096 * 4096) := by
    rwa [hasTable_congr (base_page va), same.hasTable]
  have found := pteOf_of_hasTable present
  have refused : uva2ka cur mem pgdir (va / 4096 * 4096) = some none := by
    have denied : ¬ (PteP (entry mem (pteAddr (entry mem pgdir
          (pdx (va / 4096 * 4096)))) (ptx (va / 4096 * 4096))) ∧
        PteU (entry mem (pteAddr (entry mem pgdir
          (pdx (va / 4096 * 4096)))) (ptx (va / 4096 * 4096)))) := by
      intro granted
      apply unmapped
      rw [← userMapped_congr (base_page va)]
      exact ⟨_, by rw [← same.pteOf, found]; rfl, granted⟩
    unfold HasTable at present
    unfold uva2ka uva2kaPte walkpgdir
    simp only [present, if_true, Option.map_some, Option.some.injEq]
    by_cases isPresent : PteP (entry mem (pteAddr (entry mem pgdir
        (pdx (va / 4096 * 4096)))) (ptx (va / 4096 * 4096)))
    · simpa [isPresent] using fun user => denied ⟨isPresent, user⟩
    · simp [isPresent]
  have notNull : (walkpgdir mem pgdir (va / 4096 * 4096)).isNone = false := by
    unfold HasTable at present
    simp [walkpgdir, present]
  rw [copyout, if_neg notEmpty]
  simp only [refused, notNull]

/-- When the first page is mapped its bytes are stored and the loop goes on. -/
theorem copyout_of_mapped (same : SameTables tables mem pgdir)
    (notEmpty : buf ≠ []) (bound : va < 4294967296)
    (mapped : UserMapped tables pgdir va) :
    copyout cur pgdir mem va buf =
      copyout cur pgdir
        (storeBytes tables pgdir mem va
          (buf.take (min (4096 - va % 4096) buf.length)))
        ((va / 4096 * 4096 + 4096) % 4294967296)
        (buf.drop (min (4096 - va % 4096) buf.length)) := by
  obtain ⟨pte, found, present, user⟩ := mapped
  have offset : va - va / 4096 * 4096 = va % 4096 := by omega
  have foundHere : pteOf mem pgdir (va / 4096 * 4096) = some pte := by
    rw [pteOf_congr (base_page va), same.pteOf]
    exact found
  have walked : ∃ table i, walkpgdir mem pgdir (va / 4096 * 4096) =
      some (table, i) ∧ entry mem table i = pte := by
    rw [pteOf, Option.map_eq_some_iff] at foundHere
    obtain ⟨⟨table, i⟩, walk, same⟩ := foundHere
    exact ⟨table, i, walk, same⟩
  obtain ⟨table, i, walk, entryEq⟩ := walked
  have granted : uva2ka cur mem pgdir (va / 4096 * 4096) =
      some (some (pteAddr pte)) := by
    simp [uva2ka, uva2kaPte, walk, entryEq, present, user]
  rw [copyout, if_neg notEmpty]
  simp only [granted, walk, Option.isNone_some, Bool.false_or, offset]
  rw [storeBytes_page bound (by rw [List.length_take]; omega), found,
    Option.getD_some]

/-- The addresses after the first page. -/
theorem nth_rest (va k : Nat) :
    nth ((va / 4096 * 4096 + 4096) % 4294967296) k =
      nth va (4096 - va % 4096 + k) := by
  unfold nth
  have : va + (4096 - va % 4096 + k) = va / 4096 * 4096 + 4096 + k := by omega
  rw [this]
  omega

/-- The whole loop, when it stops at a page that has a table. -/
theorem copyout_spec (cur : Frame) (separate : ∀ f, UserFrame tables pgdir f →
      ¬ IsTableFrame tables pgdir f)
    (same : SameTables tables mem pgdir) (bound : va < 4294967296)
    (stops : StopsAtTable tables pgdir va buf.length) :
    (copyout cur pgdir mem va buf).nullRead = false ∧
      (AllMapped tables pgdir va buf.length →
        (copyout cur pgdir mem va buf).result = some 0 ∧
        (copyout cur pgdir mem va buf).mem =
          storeBytes tables pgdir mem va buf) ∧
      (¬ AllMapped tables pgdir va buf.length →
        (copyout cur pgdir mem va buf).result = some (-1) ∧
        ∀ f, ¬ UserFrame tables pgdir f →
          (copyout cur pgdir mem va buf).mem f = mem f) := by
  induction length : buf.length using Nat.strong_induction_on
    generalizing mem va buf with
  | _ len ih =>
  subst length
  by_cases empty : buf = []
  · subst empty
    rw [copyout_nil]
    refine ⟨rfl, fun _ => ⟨rfl, rfl⟩, fun unmapped => absurd ?_ unmapped⟩
    intro k outside
    exact absurd outside (Nat.not_lt_zero k)
  · have positive : 0 < buf.length := List.length_pos_iff.mpr empty
    have first : nth va 0 = va := Nat.mod_eq_of_lt bound
    have table : HasTable tables pgdir va := by
      rw [← first]
      exact stops 0 positive fun k outside => absurd outside (Nat.not_lt_zero k)
    by_cases mapped : UserMapped tables pgdir va
    · let n := min (4096 - va % 4096) buf.length
      have some : 0 < n := by omega
      have pageMapped (k : Nat) (inside : k < n) :
          UserMapped tables pgdir (nth va k) :=
        (userMapped_congr (nth_page bound (by omega))).mpr mapped
      have restLength : (buf.drop n).length = buf.length - n := List.length_drop
      have shift (k : Nat) (inside : k < buf.length - n) :
          nth ((va / 4096 * 4096 + 4096) % 4294967296) k = nth va (n + k) := by
        rw [nth_rest va, show 4096 - va % 4096 + k = n + k by omega]
      have restIff (j : Nat) (le : j ≤ buf.length - n) :
          AllMapped tables pgdir ((va / 4096 * 4096 + 4096) % 4294967296) j ↔
            AllMapped tables pgdir va (n + j) := by
        constructor
        · intro rest k inside
          by_cases here : k < n
          · exact pageMapped k here
          · have := rest (k - n) (by omega)
            rwa [shift _ (by omega), show n + (k - n) = k by omega] at this
        · intro all k inside
          rw [shift _ (by omega)]
          exact all (n + k) (by omega)
      have restStops : StopsAtTable tables pgdir
          ((va / 4096 * 4096 + 4096) % 4294967296) (buf.drop n).length := by
        intro k inside before
        rw [restLength] at inside
        rw [shift k inside]
        exact stops (n + k) (by omega) ((restIff k (by omega)).mp before)
      let mem' := storeBytes tables pgdir mem va (buf.take n)
      have stored : mem' = memmove mem (pteAddr ((pteOf tables pgdir va).getD 0))
          (va % 4096) (buf.take n) :=
        storeBytes_page bound (by rw [List.length_take]; omega)
      have userFrame : UserFrame tables pgdir
          (pteAddr ((pteOf tables pgdir va).getD 0)) :=
        ⟨va, mapped, rfl⟩
      have same' : SameTables tables mem' pgdir := by
        rw [stored]
        exact same.update (separate _ userFrame)
      obtain ⟨notNull, onAll, onStop⟩ := ih (buf.drop n).length
        (by rw [restLength]; omega) same' (Nat.mod_lt _ (by decide)) restStops rfl
      rw [restLength, restIff _ le_rfl,
        show n + (buf.length - n) = buf.length by omega] at onAll onStop
      rw [copyout_of_mapped same empty bound mapped]
      refine ⟨notNull, fun all => ?_, fun notAll => ?_⟩
      · obtain ⟨zero, memEq⟩ := onAll all
        refine ⟨zero, ?_⟩
        change (copyout cur pgdir mem' _ (buf.drop n)).mem = _
        rw [memEq]
        conv_rhs => rw [← List.take_append_drop n buf, storeBytes_append]
        have taken : buf.take n ≠ [] := by
          rw [Ne, ← List.length_eq_zero_iff, List.length_take]
          omega
        rw [if_neg taken]
        by_cases done : buf.drop n = []
        · rw [done, storeBytes, storeBytes]
        · have more : 0 < (buf.drop n).length := List.length_pos_iff.mpr done
          have start : nth ((va / 4096 * 4096 + 4096) % 4294967296) 0 =
              (va / 4096 * 4096 + 4096) % 4294967296 := by
            simp only [nth, Nat.add_zero, Nat.mod_mod]
          rw [List.length_take, show min n buf.length = n + 0 by omega,
            ← shift 0 (by omega), start]
      · obtain ⟨failed, unchanged⟩ := onStop notAll
        refine ⟨failed, fun f notUser => ?_⟩
        change (copyout cur pgdir mem' _ (buf.drop n)).mem f = _
        rw [unchanged f notUser, stored]
        refine Function.update_of_ne ?_ _ _
        rintro rfl
        exact notUser userFrame
    · rw [copyout_of_not_mapped same empty table mapped]
      refine ⟨rfl, fun all => absurd ?_ mapped, fun _ => ⟨rfl, fun _ _ => rfl⟩⟩
      rw [← first]
      exact all 0 positive

/-- Otherwise it reads an entry through a null pointer. -/
theorem copyout_nullRead (separate : ∀ f, UserFrame tables pgdir f →
      ¬ IsTableFrame tables pgdir f)
    (same : SameTables tables mem pgdir) (bound : va < 4294967296)
    {k : Nat} (inside : k < buf.length) (before : AllMapped tables pgdir va k)
    (missing : ¬ HasTable tables pgdir (nth va k)) :
    (copyout cur pgdir mem va buf).nullRead = true := by
  induction length : buf.length using Nat.strong_induction_on
    generalizing mem va buf k with
  | _ len ih =>
  subst length
  have notEmpty : buf ≠ [] := List.length_pos_iff.mp (by omega)
  have first : nth va 0 = va := Nat.mod_eq_of_lt bound
  by_cases table : HasTable tables pgdir va
  · have far : ¬ k < 4096 - va % 4096 := by
      intro near
      rw [hasTable_congr (nth_page bound (by omega))] at missing
      exact missing table
    have mapped : UserMapped tables pgdir va := by
      rw [← first]
      exact before 0 (by omega)
    let n := min (4096 - va % 4096) buf.length
    have nEq : n = 4096 - va % 4096 := by omega
    have stored : storeBytes tables pgdir mem va (buf.take n) =
        memmove mem (pteAddr ((pteOf tables pgdir va).getD 0))
          (va % 4096) (buf.take n) :=
      storeBytes_page bound (by rw [List.length_take]; omega)
    have same' : SameTables tables (storeBytes tables pgdir mem va (buf.take n))
        pgdir := by
      rw [stored]
      exact same.update (separate _ ⟨va, mapped, rfl⟩)
    have restLength : (buf.drop n).length = buf.length - n := List.length_drop
    rw [copyout_of_mapped same notEmpty bound mapped]
    refine ih (buf.drop n).length (by rw [restLength]; omega) same'
      (Nat.mod_lt _ (by decide)) (k := k - n) (by rw [restLength]; omega) ?_ ?_
      rfl
    · intro j lt
      rw [nth_rest va]
      exact before _ (by omega)
    · rwa [nth_rest va, show 4096 - va % 4096 + (k - n) = k by omega]
  · exact copyout_of_no_table same notEmpty table

/-- In every address space and for every address and length, `copyout` meets
its contract exactly when the first page of the range that is not mapped, if
there is one, has a page table. -/
theorem deliversSafely_iff (space : AddressSpace) (cur : Frame)
    (va : BitVec 32) (buf : List UInt8) :
    DeliversSafely cur space.pgdir space.mem va.toNat buf ↔
      StopsAtTable space.mem space.pgdir va.toNat buf.length := by
  have bound : va.toNat < 4294967296 := va.isLt
  have same := SameTables.refl space.mem space.pgdir
  constructor
  · rintro ⟨notNull, _⟩ k inside before
    by_contra missing
    rw [copyout_nullRead space.separate same bound inside before missing]
      at notNull
    cases notNull
  · intro stops
    obtain ⟨notNull, onAll, onStop⟩ :=
      copyout_spec cur space.separate same bound stops
    refine ⟨notNull, ⟨fun zero => ?_, fun all => (onAll all).1⟩,
      fun all => (onAll all).2, onStop⟩
    by_contra notAll
    rw [(onStop notAll).1] at zero
    cases zero

/-! ## A process that reaches the null pointer -/

/-- A page whose first word is the only one that is not zero. -/
def firstWordPage (value : Nat) : Page :=
  setWord (fun _ => 0) 0 value

theorem getWord_firstWordPage {value : Nat} (small : value < 4294967296)
    (i : Nat) : getWord (firstWordPage value) (4 * i) =
      if i = 0 then value else 0 := by
  by_cases first : i = 0
  · subst first
    rw [if_pos rfl, firstWordPage, Nat.mul_zero, getWord_setWord _ _ (by decide)]
    exact Nat.mod_eq_of_lt small
  · rw [if_neg first, firstWordPage,
      getWord_setWord_of_disjoint _ _ (by decide) (.inr (by omega))]
    simp [getWord, getHalf, getByte]

/-- One user page: directory 1, table 2 and frame 3, whose first word looks
like an entry for frame 4. -/
def forgedMem : Memory
  | 1 => firstWordPage 0x2007
  | 2 => firstWordPage 0x3007
  | 3 => firstWordPage 0x4007
  | _ => fun _ => 0

theorem forged_pte {va pte : Nat} (found : pteOf forgedMem 1 va = some pte)
    (present : PteP pte) : pte = 0x3007 := by
  have table : HasTable forgedMem 1 va := by
    by_contra missing
    rw [pteOf_eq_none.mpr missing] at found
    cases found
  rw [pteOf_of_hasTable table] at found
  cases found
  have directory : entry forgedMem 1 (pdx va) =
      if pdx va = 0 then 0x2007 else 0 := getWord_firstWordPage (by decide) _
  unfold HasTable at table
  rw [directory] at table present ⊢
  split at table
  · rename_i first
    rw [if_pos first] at present ⊢
    have inTable : entry forgedMem (pteAddr 0x2007) (ptx va) =
        if ptx va = 0 then 0x3007 else 0 := getWord_firstWordPage (by decide) _
    rw [inTable] at present ⊢
    split at present
    · rename_i zero
      rw [if_pos zero]
    · cases present
  · cases table

/-- The address space of that process. -/
def forgedSpace : AddressSpace where
  mem := forgedMem
  pgdir := 1
  separate := by
    rintro f ⟨va, ⟨pte, found, present, _⟩, rfl⟩
    rw [show pteOf forgedMem 1 va = some pte from found, Option.getD_some,
      forged_pte found present]
    rintro (same | ⟨i, isPresent, same⟩)
    · cases same
    · have directory : entry forgedMem 1 i = if i = 0 then 0x2007 else 0 :=
        getWord_firstWordPage (by decide) _
      rw [directory] at isPresent same
      split at isPresent
      · rename_i zero
        rw [if_pos zero] at same
        cases same
      · cases isPresent

/-- A timer interrupt at stack pointer 0xb0000004: the entry is read through
the null pointer, the call succeeds, and the interrupted `eip` is written to
frame 4, which no user address maps. -/
theorem forged_entry_not_safe :
    ¬ DeliversSafely 1 forgedSpace.pgdir forgedSpace.mem 0xb0000000
        [0x78, 0x56, 0x34, 0x12] ∧
      (copyout 1 forgedSpace.pgdir forgedSpace.mem 0xb0000000
        [0x78, 0x56, 0x34, 0x12]).result = some 0 ∧
      ¬ UserFrame forgedSpace.mem forgedSpace.pgdir 4 ∧
      (copyout 1 forgedSpace.pgdir forgedSpace.mem 0xb0000000
        [0x78, 0x56, 0x34, 0x12]).mem 4 ≠ forgedSpace.mem 4 := by
  have missing : ¬ HasTable forgedMem 1 0xb0000000 := by decide +kernel
  have null : (copyout 1 1 forgedMem 0xb0000000
      [0x78, 0x56, 0x34, 0x12]).nullRead = true :=
    copyout_of_no_table (.refl _ _) (by decide) missing
  have wild : uva2ka 1 forgedMem 1 (0xb0000000 / 4096 * 4096) =
      some (some 4) := by
    decide +kernel
  have outcome : (copyout 1 1 forgedMem 0xb0000000
        [0x78, 0x56, 0x34, 0x12]).result = some 0 ∧
      (copyout 1 1 forgedMem 0xb0000000 [0x78, 0x56, 0x34, 0x12]).mem =
        memmove forgedMem 4 0 [0x78, 0x56, 0x34, 0x12] := by
    rw [copyout, if_neg (by decide)]
    simp only [wild]
    exact ⟨by simp [copyout_nil], by simp [copyout_nil]⟩
  refine ⟨fun safe => ?_, outcome.1, ?_, ?_⟩
  · have notNull : (copyout 1 1 forgedMem 0xb0000000
        [0x78, 0x56, 0x34, 0x12]).nullRead = false := safe.1
    rw [null] at notNull
    cases notNull
  · rintro ⟨va, ⟨pte, found, present, _⟩, same⟩
    rw [show pteOf forgedSpace.mem forgedSpace.pgdir va = some pte from found,
      Option.getD_some, forged_pte found present] at same
    cases same
  · change (copyout 1 1 forgedMem 0xb0000000 [0x78, 0x56, 0x34, 0x12]).mem 4 ≠ _
    rw [outcome.2]
    intro same
    have first := congrFun same 0
    revert first
    decide +kernel

end Xv6
