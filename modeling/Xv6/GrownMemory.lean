import Xv6.LabelledRuns
import Xv6.SizeChanges

/-!
# Memory that `sbrk` adds

A process that calls `sbrk` with any amounts and writes to its memory in between.
`allocuvm` clears the pages that it maps, but the break moves by bytes: the bytes
between the break and the end of its page are mapped all the time, the process can
write them, and nothing clears them when the break moves over them.
-/

namespace Xv6.Vm

open ByteFields StateTriples LabelledRuns

/-- `PTE_W` is set. -/
def PteW (pte : Nat) : Prop :=
  pte / 2 % 2 = 1

instance (pte : Nat) : Decidable (PteW pte) := inferInstanceAs (Decidable (_ = _))

/-- The offset of an address in its page. -/
def pageOffset (va : Nat) : Fin pgsize := ⟨va % 4096, Nat.mod_lt va (by decide)⟩

/-- The byte that the process reads at an address, unless it faults. -/
def userByte (mem : Memory) (d : Frame) (va : Nat) : Option UInt8 :=
  if PteP (pte mem d (va / 4096)) ∧ PteU (pte mem d (va / 4096)) then
    some (mem (pteAddr (pte mem d (va / 4096))) (pageOffset va))
  else none

/-- A process with the kernel's memory.  `fresh` says which bytes of it an `sbrk` has
added that the process has not written since. -/
structure Process where
  kernel : Kernel
  sz : Nat
  fresh : Nat → Prop

/-- A system call or a store of the process. -/
inductive MemoryLabel where
  | sbrk (n : BitVec 32)
  | write (va : Nat) (value : UInt8)

/-- `sys_sbrk`: what it returns, and the process behind it. -/
def sysSbrk (boot : Boot) (d : Frame) (p : Process) (n : BitVec 32) :
    Except VmStop (Int × Process) := do
  let addr : Int := p.sz
  let ((result, sz), kernel) ← growproc boot d p.sz n.toInt p.kernel
  let p := ⟨kernel, sz, fun va => va < sz ∧ (p.sz ≤ va ∨ p.fresh va)⟩
  if result < 0 then return (-1, p) else return (addr, p)

/-- A byte of a frame is stored. -/
def storeByte (mem : Memory) (f : Frame) (offset : Fin pgsize) (value : UInt8) : Memory :=
  Function.update mem f (Function.update (mem f) offset value)

/-- The process may store to a page with this entry. -/
def PteUserW (pte : Nat) : Prop := PteP pte ∧ PteU pte ∧ PteW pte

instance (pte : Nat) : Decidable (PteUserW pte) := inferInstanceAs (Decidable (_ ∧ _))

/-- A store of the process; one that faults ends it. -/
def userWrite (d : Frame) (p : Process) (va : Nat) (value : UInt8) : Option Process :=
  if va < kernbase ∧ PteUserW (pte p.kernel.mem d (va / 4096)) then
    some ⟨⟨storeByte p.kernel.mem (pteAddr (pte p.kernel.mem d (va / 4096))) (pageOffset va) value,
      p.kernel.freelist⟩, p.sz, fun a => a ≠ va ∧ p.fresh a⟩
  else none

/-- One step of the process. -/
def memoryStep (boot : Boot) (d : Frame) (p : Process) : MemoryLabel → Option Process
  | .sbrk n => match sysSbrk boot d p n with
      | .ok (_, p) => some p
      | .error _ => none
  | .write va value => userWrite d p va value

/-- What an `sbrk` has added reads as zero until it is written. -/
def FreshZero (d : Frame) (p : Process) : Prop :=
  ∀ va, p.fresh va → userByte p.kernel.mem d va = some 0

/-- Where the break moves up, the bytes of its page that it moves over are zero; and a
call that asks for a break of zero, which fails after it has freed every page, finds no
byte that was added and is not written yet. -/
def Clear (d : Frame) (p : Process) : MemoryLabel → Prop
  | .sbrk n =>
      (Grows p.kernel d p.sz n.toInt → ∀ va, p.sz ≤ va → va < p.sz + n.toInt →
        va < pgroundup p.sz → userByte p.kernel.mem d va = some 0) ∧
      (p.sz ≠ 0 → n.toInt = -p.sz → ∀ va, ¬ p.fresh va)
  | .write _ _ => True

/-- Nothing is mapped from the page of the break on. -/
def VacantFrom (s : Kernel) (d : Frame) (sz : Nat) : Prop :=
  ∀ u, pages sz ≤ u → u < userPages → ¬ PteP (pte s.mem d u)

/-- The frames are apart, nothing is mapped from the page of the break on, and what is
fresh is below the break. -/
structure Sized (boot : Boot) (d : Frame) (extra : Multiset Frame) (p : Process) : Prop where
  wf : Wf boot p.kernel d extra
  bound : p.sz < kernbase
  vacant : VacantFrom p.kernel d p.sz
  below : ∀ va, p.fresh va → va < p.sz

/-! ## Reads -/

section Reads

variable {boot : Boot} {s s' : Kernel} {d : Frame} {extra : Multiset Frame} {va : Nat}

theorem userByte_of_vacant (vacant : ¬ PteP (pte s.mem d (va / 4096))) :
    userByte s.mem d va = none :=
  if_neg fun both => vacant both.1

/-- A page with the same entry and the same bytes. -/
theorem userByte_congr (entry : present s'.mem d (va / 4096) = present s.mem d (va / 4096))
    (contents : PteP (pte s.mem d (va / 4096)) → PteP (pte s'.mem d (va / 4096)) →
      s'.mem (pteAddr (pte s.mem d (va / 4096))) = s.mem (pteAddr (pte s.mem d (va / 4096)))) :
    userByte s'.mem d va = userByte s.mem d va := by
  unfold present at entry
  by_cases here : PteP (pte s.mem d (va / 4096))
  · rw [if_pos here] at entry
    split at entry
    case isTrue there =>
      have same := Option.some.inj entry
      unfold userByte
      rw [same, contents here there]
    case isFalse => cases entry
  · rw [if_neg here] at entry
    split at entry
    case isTrue => cases entry
    case isFalse there => rw [userByte_of_vacant here, userByte_of_vacant there]

theorem Kept.userByte (kept : Kept s s' d) (user : va < kernbase)
    (entry : present s'.mem d (va / 4096) = present s.mem d (va / 4096)) :
    userByte s'.mem d va = userByte s.mem d va := by
  have size := userPages_eq
  have top : va < 2147483648 := user
  exact userByte_congr entry (kept.contents (va / 4096) (by omega))

theorem present_congr {v : Nat} (same : pte s'.mem d v = pte s.mem d v) :
    present s'.mem d v = present s.mem d v := by
  unfold present
  rw [same]

/-- The pages that `allocuvm` has mapped read as zero. -/
theorem Growing.userByte_zero {lo hi : Nat} (growing : Growing boot s s' d extra lo hi)
    (low : lo ≤ va / 4096) (high : va / 4096 < hi) : Vm.userByte s'.mem d va = some 0 := by
  obtain ⟨f, -, entry, zero⟩ := growing.mapped (va / 4096) low high
  have here : PteP (f * 4096 ||| pteWU ||| 1) := pteP_entry f (by decide)
  have user : PteU (f * 4096 ||| pteWU ||| 1) := by
    rw [or_entry f (by decide)]
    unfold PteU
    have flags : pteWU ||| 1 = 7 := by decide
    rw [flags]
    omega
  have address : pteAddr (f * 4096 ||| pteWU ||| 1) = f := pteAddr_entry f (by decide)
  unfold Vm.userByte
  rw [entry, if_pos ⟨here, user⟩, address, zero]
  rfl

end Reads

/-! ## What `growproc` does to what is read -/

/-- What a call of `growproc` does: it changes no byte up to the end of the page of the
old break and adds zeros behind it, or it unmaps everything. -/
structure Resized (boot : Boot) (s s' : Kernel) (d : Frame) (extra : Multiset Frame)
    (sz sz' : Nat) (n : Int) : Prop where
  wf : Wf boot s' d extra
  bound : sz' < kernbase
  vacant : VacantFrom s' d sz'
  same : ¬(sz ≠ 0 ∧ n = -sz) → ∀ va, va < sz' → va < pgroundup sz →
    userByte s'.mem d va = userByte s.mem d va
  zero : ∀ va, pgroundup sz ≤ va → va < sz' → userByte s'.mem d va = some 0
  all : sz ≠ 0 → n = -sz → sz' = sz ∧ ∀ va < kernbase, userByte s'.mem d va = none

section Resize

variable {boot : Boot} {s s' : Kernel} {d : Frame} {extra : Multiset Frame} {sz newsz : Nat}
  {n : Int}

theorem pgroundup_eq (szLt : sz < kernbase) : pgroundup sz = pages sz * 4096 := by
  have top : sz < 2147483648 := szLt
  unfold pgroundup pages
  omega

/-- The size and what is read are as before. -/
theorem Restored.resized (wf : Wf boot s d extra) (szLt : sz < kernbase)
    (vacant : VacantFrom s d sz) (restored : Restored s s' d) (less : ¬(sz ≠ 0 ∧ n = -sz)) :
    Resized boot s s' d extra sz sz n where
  wf := wf.congr (by rw [restored.kept.total])
  bound := szLt
  vacant u low uLt here := by
    have same := restored.pages u
    unfold present at same
    rw [if_pos here, if_neg (vacant u low uLt)] at same
    cases same
  same _ va low _ := restored.kept.userByte (by omega) (restored.pages _)
  zero va low high := by
    rw [pgroundup_eq szLt] at low
    unfold Vm.pages at low
    omega
  all some_ empty := absurd ⟨some_, empty⟩ less

theorem Growing.resized (szLt : sz < kernbase) (vacant : VacantFrom s d sz)
    (order : sz < newsz) (bound : newsz < kernbase) (positive : 0 < n)
    (growing : Growing boot s s' d extra (pages sz) (pages newsz)) :
    Resized boot s s' d extra sz newsz n where
  wf := growing.wf
  bound := bound
  vacant u low uLt := by
    have more : pages sz ≤ pages newsz := by
      unfold pages
      omega
    rw [growing.outside u (.inr low)]
    exact vacant u (by omega) uLt
  same _ va low high := by
    rw [pgroundup_eq szLt] at high
    exact growing.kept.userByte (by omega)
      (present_congr (growing.outside _ (.inl (by omega))))
  zero va low high := by
    rw [pgroundup_eq szLt] at low
    have inside : va / 4096 < pages newsz := by
      unfold pages
      omega
    exact growing.userByte_zero (by omega) inside
  all _ empty := by omega

/-- The pages from a smaller size on are freed. -/
theorem freeRange_vacantFrom (wf : Wf boot s d extra) (szLt : sz < kernbase)
    (vacant : VacantFrom s d sz) (less : newsz < sz) :
    Wf boot (freeRange d (pages newsz) (pages sz - pages newsz) s) d extra ∧
      VacantFrom (freeRange d (pages newsz) (pages sz - pages newsz) s) d newsz ∧
      ∀ va, va < newsz → userByte (freeRange d (pages newsz) (pages sz - pages newsz) s).mem d va =
        userByte s.mem d va := by
  have size := userPages_eq
  have top : sz < 2147483648 := szLt
  have range : pages newsz + (pages sz - pages newsz) ≤ userPages := by
    unfold pages
    omega
  have freed := freeRange_freed wf.dir range
  refine ⟨(wf_freeRange wf range).2, fun u low uLt here => ?_, fun va low => ?_⟩
  · rw [freed.pte] at here
    split at here
    · cases here
    · rename_i kept
      refine kept ⟨low, ?_, here⟩
      by_contra beyond
      exact vacant u (by omega) uLt here
  · have before : va / 4096 < pages newsz := by
      unfold pages
      omega
    have user : va < kernbase := low.trans (less.trans szLt)
    refine (freeRange_kept wf range).userByte user (present_congr ?_)
    rw [freed.pte, if_neg (by omega)]

theorem growproc_resized (wf : Wf boot s d extra) (szLt : sz < kernbase)
    (vacant : VacantFrom s d sz) (nLow : -2147483648 ≤ n) (nHigh : n < 2147483648) :
    ∃ result sz' s', growproc boot d sz n s = .ok ((result, sz'), s') ∧
      (Grows s d sz n ∧ (sz' : Int) = sz + n ∨ ¬ Grows s d sz n ∧ sz' ≤ sz) ∧
      Resized boot s s' d extra sz sz' n := by
  have still {m : Int} (down : ¬ 0 < m) {sz' : Nat} (less : sz' ≤ sz) :
      Grows s d sz m ∧ (sz' : Int) = sz + m ∨ ¬ Grows s d sz m ∧ sz' ≤ sz :=
    .inr ⟨fun grows => down grows.1, less⟩
  rcases lt_trichotomy n 0 with negative | rfl | positive
  · rcases lt_trichotomy (sz + n) 0 with below | empty | above
    · have unchanged := (restored_refl s d).resized wf szLt vacant (by omega : ¬(sz ≠ 0 ∧ n = -sz))
      have run := @growproc_wrap boot s d sz n szLt nLow below
      by_cases empty : sz = 0
      · rw [if_pos empty] at run
        exact ⟨-1, sz, s, run, still negative.not_gt le_rfl, unchanged⟩
      · rw [if_neg empty] at run
        exact ⟨0, sz, s, run, still negative.not_gt le_rfl, unchanged⟩
    · have run := growproc_shrink wf.dir szLt negative empty.ge
      rw [if_pos empty] at run
      have zero : (sz + n).toNat = 0 := by omega
      obtain ⟨wf', vacant', -⟩ :=
        freeRange_vacantFrom wf szLt vacant (by omega : (sz + n).toNat < sz)
      have gone (u : Nat) (uLt : u < userPages) : ¬ PteP (pte (freeRange d
          (pages (sz + n).toNat) (pages sz - pages (sz + n).toNat) s).mem d u) := by
        refine vacant' u ?_ uLt
        rw [zero]
        exact Nat.zero_le u
      refine ⟨-1, sz, _, run, still negative.not_gt le_rfl, wf', szLt,
        fun u _ uLt => gone u uLt, fun less => ?_, fun va low high => ?_,
        fun _ _ => ⟨rfl, fun va user => ?_⟩⟩
      · exact absurd ⟨by omega, by omega⟩ less
      · rw [pgroundup_eq szLt] at low
        unfold pages at low
        omega
      · have size := userPages_eq
        have top : va < 2147483648 := user
        exact userByte_of_vacant (gone _ (by omega))
    · have run := growproc_shrink wf.dir szLt negative above.le
      rw [if_neg above.ne'] at run
      obtain ⟨wf', vacant', same⟩ :=
        freeRange_vacantFrom wf szLt vacant (by omega : (sz + n).toNat < sz)
      refine ⟨0, _, _, run, still negative.not_gt (by omega), wf', by omega, vacant',
        fun _ va low _ => same va low,
        fun va low high => ?_, fun _ empty => by omega⟩
      rw [pgroundup_eq szLt] at low
      unfold pages at low
      omega
  · refine ⟨0, sz, s, ?_, still (lt_irrefl 0) le_rfl,
      (restored_refl s d).resized wf szLt vacant (by omega)⟩
    simp only [growproc, pure_apply, gt_iff_lt, lt_irrefl, if_false]
  · rcases growproc_grow wf vacant szLt positive nHigh with
      ⟨grows, newsz, s', sum, bound, run, growing⟩ | ⟨stuck, s', run, restored⟩
    · exact ⟨0, newsz, s', run, .inl ⟨grows, sum⟩,
        growing.resized szLt vacant (by omega) bound positive⟩
    · exact ⟨-1, sz, s', run, .inr ⟨stuck, le_rfl⟩,
        restored.resized wf szLt vacant (by omega)⟩

end Resize

/-! ## Steps and runs -/

section Runs

variable {boot : Boot} {d : Frame} {extra : Multiset Frame} {p next : Process}

/-- A call of `sbrk` does what `growproc` does. -/
theorem memoryStep_sbrk {n : BitVec 32} {result : Int} {sz' : Nat} {s' : Kernel}
    (run : growproc boot d p.sz n.toInt p.kernel = .ok ((result, sz'), s')) :
    memoryStep boot d p (.sbrk n) =
      some ⟨s', sz', fun va => va < sz' ∧ (p.sz ≤ va ∨ p.fresh va)⟩ := by
  simp only [memoryStep, sysSbrk, run, bind, Except.bind]
  by_cases failed : result < 0
  · rw [if_pos failed]
    rfl
  · rw [if_neg failed]
    rfl

/-- What a call of `sbrk` leaves. -/
theorem sbrk_resized {n : BitVec 32} (sized : Sized boot d extra p)
    (stepped : memoryStep boot d p (.sbrk n) = some next) :
    (Grows p.kernel d p.sz n.toInt ∧ (next.sz : Int) = p.sz + n.toInt ∨
        ¬ Grows p.kernel d p.sz n.toInt ∧ next.sz ≤ p.sz) ∧
      (∀ va, next.fresh va ↔ va < next.sz ∧ (p.sz ≤ va ∨ p.fresh va)) ∧
      Resized boot p.kernel next.kernel d extra p.sz next.sz n.toInt := by
  obtain ⟨result, sz', s', run, moves, resized⟩ := growproc_resized sized.wf sized.bound
    sized.vacant (BitVec.le_toInt n) (BitVec.toInt_lt (x := n))
  rw [memoryStep_sbrk run] at stepped
  cases stepped
  exact ⟨moves, fun _ => Iff.rfl, resized⟩

/-- After a call of `sbrk` all that is fresh is zero exactly if the call was clear. -/
theorem freshZero_sbrk_iff {n : BitVec 32} (sized : Sized boot d extra p)
    (zero : FreshZero d p) (stepped : memoryStep boot d p (.sbrk n) = some next) :
    FreshZero d next ↔ Clear d p (.sbrk n) := by
  obtain ⟨moves, fresh, resized⟩ := sbrk_resized sized stepped
  have page : p.sz ≤ pgroundup p.sz := by
    rw [pgroundup_eq sized.bound]
    unfold pages
    omega
  constructor
  · intro after
    constructor
    · intro grows va low high inPage
      have size : va < next.sz := by
        rcases moves with ⟨-, size⟩ | ⟨stuck, -⟩
        · omega
        · exact absurd grows stuck
      have less : ¬(p.sz ≠ 0 ∧ n.toInt = -p.sz) := by
        rintro ⟨some_, empty⟩
        have back := (resized.all some_ empty).1
        omega
      rw [← resized.same less va size inPage]
      exact after va ((fresh va).mpr ⟨size, .inl low⟩)
    · intro some_ empty va isFresh
      obtain ⟨back, gone⟩ := resized.all some_ empty
      have below := sized.below va isFresh
      have read := after va ((fresh va).mpr ⟨by omega, .inr isFresh⟩)
      rw [gone va (below.trans sized.bound)] at read
      cases read
  · rintro ⟨edge, kept⟩ va isFresh
    obtain ⟨high, before⟩ := (fresh va).mp isFresh
    by_cases empty : p.sz ≠ 0 ∧ n.toInt = -p.sz
    · have back := (resized.all empty.1 empty.2).1
      rcases before with low | isFresh
      · omega
      · exact absurd isFresh (kept empty.1 empty.2 va)
    · by_cases inPage : va < pgroundup p.sz
      · rw [resized.same empty va high inPage]
        rcases before with low | isFresh
        · rcases moves with ⟨grows, size⟩ | ⟨-, less⟩
          · exact edge grows va low (by omega) inPage
          · omega
        · exact zero va isFresh
      · exact resized.zero va (by omega) high

theorem sized_sbrk {n : BitVec 32} (sized : Sized boot d extra p)
    (stepped : memoryStep boot d p (.sbrk n) = some next) : Sized boot d extra next := by
  obtain ⟨-, fresh, resized⟩ := sbrk_resized sized stepped
  exact ⟨resized.wf, resized.bound, resized.vacant, fun va isFresh => ((fresh va).mp isFresh).1⟩

/-- A store of the process changes one byte of it. -/
theorem userWrite_read {va : Nat} {value : UInt8} (sized : Sized boot d extra p)
    (written : userWrite d p va value = some next) :
    Sized boot d extra next ∧ ∀ a < kernbase, a ≠ va →
      userByte next.kernel.mem d a = userByte p.kernel.mem d a := by
  unfold userWrite at written
  split at written
  case isFalse => cases written
  case isTrue allowed =>
    cases written
    have size := userPages_eq
    have top : va < 2147483648 := allowed.1
    have here : PteP (pte p.kernel.mem d (va / 4096)) := allowed.2.1
    obtain ⟨notDir, notTable⟩ := sized.wf.page_notTable (by omega) here
    have entries (v : Nat) : pte (storeByte p.kernel.mem
        (pteAddr (pte p.kernel.mem d (va / 4096))) (pageOffset va) value) d v =
          pte p.kernel.mem d v := pte_update _ v notDir.symm notTable
    have tables (i : Nat) : tableOf (storeByte p.kernel.mem
        (pteAddr (pte p.kernel.mem d (va / 4096))) (pageOffset va) value) d i =
          tableOf p.kernel.mem d i := tableOf_update _ i notDir.symm
    refine ⟨⟨?_, sized.bound, fun u low uLt => ?_, fun a isFresh => sized.below a isFresh.2⟩,
      fun a user other => ?_⟩
    · refine sized.wf.congr ?_
      unfold total
      simp only
      rw [owned_congr tables fun v _ => entries v]
    · rw [entries]
      exact sized.vacant u low uLt
    · have atop : a < 2147483648 := user
      unfold userByte
      simp only [entries]
      by_cases present : PteP (pte p.kernel.mem d (a / 4096))
      · congr 2
        by_cases same : a / 4096 = va / 4096
        · have offset : pageOffset a ≠ pageOffset va := by
            intro equal
            have numbers : a % 4096 = va % 4096 := congrArg Fin.val equal
            omega
          rw [storeByte, same, Function.update_self, Function.update_of_ne offset]
        · rw [storeByte, Function.update_of_ne]
          intro equal
          exact same (sized.wf.page_unique (by omega) (by omega) present here equal)
      · rw [if_neg fun both => present both.1, if_neg fun both => present both.1]

/-- Every step that is clear keeps what is fresh zero, and no other one does. -/
theorem freshZero_step_iff {label : MemoryLabel} (sized : Sized boot d extra p)
    (zero : FreshZero d p) (stepped : memoryStep boot d p label = some next) :
    FreshZero d next ↔ Clear d p label := by
  cases label with
  | sbrk n => exact freshZero_sbrk_iff sized zero stepped
  | write va value =>
      refine iff_of_true (fun a isFresh => ?_) trivial
      obtain ⟨-, same⟩ := userWrite_read sized stepped
      have before : a ≠ va ∧ p.fresh a := by
        have written : userWrite d p va value = some next := stepped
        unfold userWrite at written
        split at written
        · cases written
          exact isFresh
        · cases written
      rw [same a ((sized.below a before.2).trans sized.bound) before.1]
      exact zero a before.2

theorem sized_step {label : MemoryLabel} (sized : Sized boot d extra p)
    (stepped : memoryStep boot d p label = some next) : Sized boot d extra next := by
  cases label with
  | sbrk n => exact sized_sbrk sized stepped
  | write va value => exact (userWrite_read sized stepped).1

/-- In a run of `sbrk` calls and writes every byte that a call has added reads as zero
until it is written exactly if every call is clear. -/
theorem freshZero_iff {start last : Process} {labels : List MemoryLabel}
    (sized : Sized boot d extra start) (none : ∀ va, ¬ start.fresh va)
    (ran : run (memoryStep boot d) start labels = some last) :
    (∀ first reached, first <+: labels → run (memoryStep boot d) start first = some reached →
        FreshZero d reached) ↔ RunMeets (memoryStep boot d) (Clear d) start labels := by
  have preserved {p next : Process} {label : MemoryLabel}
      (both : Sized boot d extra p ∧ FreshZero d p) (_ : True) (clear : Clear d p label)
      (stepped : memoryStep boot d p label = some next) :
      Sized boot d extra next ∧ FreshZero d next :=
    ⟨sized_step both.1 stepped, (freshZero_step_iff both.1 both.2 stepped).mpr clear⟩
  have good_iff {p next : Process} {label : MemoryLabel}
      (both : Sized boot d extra p ∧ FreshZero d p) (_ : True)
      (stepped : memoryStep boot d p label = some next) :
      FreshZero d next ↔ Clear d p label :=
    freshZero_step_iff both.1 both.2 stepped
  have zero : FreshZero d start := fun va isFresh => absurd isFresh (none va)
  exact always_iff_runMeets preserved good_iff ⟨sized, zero⟩ zero
    (runMeets_true start labels) ran

end Runs

/-! ## A process of one page -/

/-- A process of one page, with a free frame. -/
def onePageProcess : Process := ⟨onePage, 4096, fun _ => False⟩

theorem onePageProcess_sized : Sized smallBoot 512 0 onePageProcess :=
  ⟨onePage_wf, by decide, onePage_presentBelow.vacant, fun _ isFresh => isFresh.elim⟩

/-- A call of `allocuvm` that stays in the page of the break. -/
theorem allocuvm_samePage {boot : Boot} {s : Kernel} {d : Frame} {oldsz newsz : Nat}
    (order : oldsz ≤ newsz) (bound : newsz < kernbase) (same : newsz ≤ pgroundup oldsz) :
    allocuvm boot d oldsz newsz s = .ok (newsz, s) := by
  have loop (fuel : Nat) :
      allocuvmLoop boot d oldsz newsz (fuel + 1) (pgroundup oldsz) s = .ok (newsz, s) := by
    simp only [allocuvmLoop, if_apply, pure_apply,
      if_neg (show ¬ pgroundup oldsz < newsz by omega)]
  have unfolded : allocuvm boot d oldsz newsz s =
      allocuvmLoop boot d oldsz newsz 1048577 (pgroundup oldsz) s := by
    simp only [allocuvm, if_apply, pure_apply,
      if_neg (show ¬ newsz ≥ kernbase by omega), if_neg (show ¬ newsz < oldsz by omega)]
  rw [unfolded]
  exact loop 1048576

/-- The process of one page behind a store. -/
def writtenProcess : Process :=
  ⟨⟨storeByte onePage.mem 601 (pageOffset 100) 7, [602]⟩, 4096, fun a => a ≠ 100 ∧ False⟩

theorem onePage_pte : pte onePage.mem 512 (100 / 4096) = 601 * 4096 ||| pteWU ||| 1 := by
  rw [onePage_mapped.pte]
  rfl

theorem userWrite_onePage : userWrite 512 onePageProcess 100 7 = some writtenProcess := by
  have allowed : 100 < kernbase ∧
      PteUserW (pte onePageProcess.kernel.mem 512 (100 / 4096)) := by
    refine ⟨by decide, ?_⟩
    change PteUserW (pte onePage.mem 512 (100 / 4096))
    rw [onePage_pte]
    decide
  have frame : pteAddr (pte onePageProcess.kernel.mem 512 (100 / 4096)) = 601 := by
    change pteAddr (pte onePage.mem 512 (100 / 4096)) = 601
    rw [onePage_pte]
    decide
  rw [userWrite, if_pos allowed, frame]
  rfl

theorem writtenProcess_byte {va : Nat} (inPage : va < 4096) :
    userByte writtenProcess.kernel.mem 512 va = some (if va = 100 then 7 else 0) := by
  have size := userPages_eq
  have here : PteP (pte onePage.mem 512 (100 / 4096)) := by
    rw [onePage_pte]
    decide
  obtain ⟨notDir, notTable⟩ := onePage_wf.page_notTable (by omega : 100 / 4096 < userPages) here
  have address : pteAddr (pte onePage.mem 512 (100 / 4096)) = 601 := by
    rw [onePage_pte]
    decide
  rw [address] at notDir notTable
  have entry : pte writtenProcess.kernel.mem 512 (va / 4096) = 601 * 4096 ||| pteWU ||| 1 := by
    rw [show va / 4096 = 100 / 4096 by omega, ← onePage_pte]
    exact pte_update _ (100 / 4096) notDir.symm notTable
  have frame : pteAddr (601 * 4096 ||| pteWU ||| 1) = 601 := by decide
  have blank : onePage.mem 601 = zeroPage := rfl
  unfold userByte
  rw [entry, if_pos (by decide), frame]
  change some (storeByte onePage.mem 601 (pageOffset 100) 7 601 (pageOffset va)) = _
  rw [storeByte, Function.update_self, Function.update_apply, blank]
  by_cases same : va = 100
  · rw [if_pos same, if_pos (congrArg pageOffset same)]
  · rw [if_neg same, if_neg]
    · rfl
    · intro equal
      have offsets : va % 4096 = 100 % 4096 := congrArg Fin.val equal
      omega

theorem writtenProcess_sized : Sized smallBoot 512 0 writtenProcess :=
  (userWrite_read onePageProcess_sized userWrite_onePage).1

/-- Moving the break inside the page does not change the kernel's memory. -/
theorem growproc_inPage {s : Kernel} {sz : Nat} {n : Int} (positive : 0 < n)
    (bound : sz + n < kernbase) (same : sz + n ≤ pgroundup sz) :
    growproc smallBoot 512 sz n s = .ok ((0, (sz + n).toNat), s) := by
  have top : (kernbase : Int) = 2147483648 := rfl
  have sum : ((sz + n) % 4294967296).toNat = (sz + n).toNat := by omega
  simp only [growproc, sum, if_apply, bind_apply, pure_apply, if_pos (show n > 0 from positive),
    @allocuvm_samePage smallBoot s 512 sz (sz + n).toNat (by omega) (by omega) (by omega),
    if_neg (show (sz + n).toNat ≠ 0 by omega)]

/-- The process writes a byte, gives some of its page back and takes less again: the bytes
that the last call adds were never written. -/
theorem unwrittenBytes_zero : ∃ last,
    run (memoryStep smallBoot 512) onePageProcess [.write 100 7, .sbrk (-3000), .sbrk 1000] =
      some last ∧
      last.sz = 2096 ∧ last.fresh 1096 ∧ FreshZero 512 last := by
  have down : growproc smallBoot 512 4096 (-3000 : BitVec 32).toInt writtenProcess.kernel =
      .ok ((0, 1096), writtenProcess.kernel) :=
    growproc_shrink writtenProcess_sized.wf.dir (by decide) (by decide) (by decide)
  have up : growproc smallBoot 512 1096 (1000 : BitVec 32).toInt writtenProcess.kernel =
      .ok ((0, 2096), writtenProcess.kernel) :=
    growproc_inPage (by decide) (by decide) (by decide)
  have stepDown := memoryStep_sbrk (p := writtenProcess) down
  have stepUp := memoryStep_sbrk (p := ⟨writtenProcess.kernel, 1096,
    fun va => va < 1096 ∧ (4096 ≤ va ∨ va ≠ 100 ∧ False)⟩) up
  have ran : run (memoryStep smallBoot 512) onePageProcess
      [.write 100 7, .sbrk (-3000), .sbrk 1000] = some _ :=
    run_cons_eq_some.mpr ⟨_, userWrite_onePage, run_cons_eq_some.mpr
      ⟨_, stepDown, run_cons_eq_some.mpr ⟨_, stepUp, rfl⟩⟩⟩
  have clear : RunMeets (memoryStep smallBoot 512) (Clear 512) onePageProcess
      [.write 100 7, .sbrk (-3000), .sbrk 1000] := by
    refine ⟨trivial, fun next written => ?_⟩
    cases userWrite_onePage.symm.trans written
    refine ⟨⟨fun grows => absurd grows.1 (by decide), fun _ empty => absurd empty (by decide)⟩,
      fun next stepped => ?_⟩
    cases stepDown.symm.trans stepped
    refine ⟨⟨fun _ va low high inPage => ?_, fun _ empty => absurd empty (by decide)⟩,
      fun _ _ => trivial⟩
    have top : pgroundup 1096 = 4096 := by decide
    have above : 1096 ≤ va := low
    have below : va < pgroundup 1096 := inPage
    have byte := @writtenProcess_byte va (by omega)
    rwa [if_neg (by omega)] at byte
  exact ⟨_, ran, rfl, ⟨by decide, .inl (by decide)⟩,
    (freshZero_iff onePageProcess_sized (fun _ => id) ran).mpr clear _ _ (List.prefix_refl _) ran⟩

/-- The process writes a byte, gives most of its page back and takes it again: the byte
that the last call adds is still the one that was written. -/
theorem writtenByte_back : Sized smallBoot 512 0 onePageProcess ∧ ∃ last,
    run (memoryStep smallBoot 512) onePageProcess [.write 100 7, .sbrk (-4000), .sbrk 4000] =
      some last ∧
      last.fresh 100 ∧ userByte last.kernel.mem 512 100 = some 7 ∧ ¬ FreshZero 512 last := by
  have down : growproc smallBoot 512 4096 (-4000 : BitVec 32).toInt writtenProcess.kernel =
      .ok ((0, 96), writtenProcess.kernel) :=
    growproc_shrink writtenProcess_sized.wf.dir (by decide) (by decide) (by decide)
  have up : growproc smallBoot 512 96 (4000 : BitVec 32).toInt writtenProcess.kernel =
      .ok ((0, 4096), writtenProcess.kernel) :=
    growproc_inPage (by decide) (by decide) (by decide)
  have ran : run (memoryStep smallBoot 512) onePageProcess
      [.write 100 7, .sbrk (-4000), .sbrk 4000] = some _ :=
    run_cons_eq_some.mpr ⟨_, userWrite_onePage, run_cons_eq_some.mpr
      ⟨_, memoryStep_sbrk down, run_cons_eq_some.mpr ⟨_, memoryStep_sbrk up, rfl⟩⟩⟩
  refine ⟨onePageProcess_sized, _, ran, ⟨by decide, .inl (by decide)⟩,
    writtenProcess_byte (by decide),
    fun zero => ?_⟩
  have read := zero 100 ⟨by decide, .inl (by decide)⟩
  have same : userByte writtenProcess.kernel.mem 512 100 = some 0 := read
  rw [writtenProcess_byte (by decide)] at same
  cases same

end Xv6.Vm
