import Xv6.ExecStack
import Xv6.ForkSpaces

/-!
# What the calls do to the frames of a process

`growproc`, `exec` and `copyuvm` move frames between the free list and one
address space, and they write to no other frame.  Only a failing `copyuvm` may
lose a frame on the way.
-/

namespace Xv6.Vm

open ByteFields StateTriples

/-- An address space as the kernel keeps it: the user pages are those below the
size, and the kernel's part is mapped. -/
structure Space (boot : Boot) (mem : Memory) (d : Frame) (sz : Nat) : Prop where
  bound : sz < kernbase
  below : PresentBelow mem d (pages sz)
  kernel : KernelPart boot mem d

section Spaces

variable {boot : Boot} {s s' : Kernel} {d p : Frame} {extra : Multiset Frame} {sz : Nat}

/-- A space whose frames keep their contents. -/
theorem Space.congr {mem mem' : Memory} (space : Space boot mem d sz)
    (same : ∀ f ∈ owned mem d, mem' f = mem f) : Space boot mem' d sz := by
  obtain ⟨entries, -, -⟩ := space_congr same
  refine ⟨space.bound, ?_, space.kernel.congr fun u _ => entries u⟩
  intro v vLt
  rw [entries]
  exact space.below v vLt

theorem Restored.space (restored : Restored s s' d) (space : Space boot s.mem d sz) :
    Space boot s'.mem d sz := by
  refine ⟨space.bound, ?_, space.kernel.restored fun u _ => restored.pages u⟩
  intro v vLt
  have same := restored.pages v
  rw [← space.below v vLt]
  unfold present at same
  split at same
  next now =>
    split at same
    next before => exact iff_of_true now before
    next => cases same
  next now =>
    split at same
    next => cases same
    next before => exact iff_of_false now before

theorem Growing.space {newsz : Nat} (space : Space boot s.mem d sz) (more : sz ≤ newsz)
    (bound : newsz < kernbase)
    (growing : Growing boot s s' d extra (pages sz) (pages newsz)) :
    Space boot s'.mem d newsz := by
  have order : pages sz ≤ pages newsz := by
    unfold pages
    omega
  refine ⟨bound, growing.presentBelow order space.below, space.kernel.congr ?_⟩
  intro u high
  apply growing.outside u (.inr _)
  have size := userPages_eq
  have top : newsz < 2147483648 := bound
  unfold pages
  omega

/-- `growproc` returns with a space of the new size, unless the process gives
back all of its memory. -/
theorem growproc_space {n : Int} (wf : Wf boot s d extra) (space : Space boot s.mem d sz)
    (nLow : -2147483648 ≤ n) (nHigh : n < 2147483648) (keeps : sz = 0 ∨ n ≠ -sz) :
    ∃ result sz' s', growproc boot d sz n s = .ok ((result, sz'), s') ∧
      Space boot s'.mem d sz' ∧ total s' d = total s d ∧
      ∀ f ∉ total s d, s'.mem f = s.mem f := by
  have szLt := space.bound
  have top : sz < 2147483648 := szLt
  rcases lt_trichotomy n 0 with negative | zero | positive
  · by_cases covered : 0 ≤ sz + n
    · have run := growproc_shrink wf.dir szLt negative covered
      have some : sz + n ≠ 0 := by omega
      rw [if_neg some] at run
      have range : pages (sz + n).toNat + (pages sz - pages (sz + n).toNat) ≤ userPages := by
        rw [userPages_eq]
        unfold pages
        omega
      have freed := freeRange_freed wf.dir range
      have kept := freeRange_kept wf range
      refine ⟨0, _, _, run, ⟨by omega, ?_, space.kernel.congr ?_⟩, kept.total, kept.others⟩
      · exact freeRange_presentBelow wf.dir szLt.le (by omega) space.below
      · intro u high
        rw [freed.pte, if_neg]
        rintro ⟨-, below, -⟩
        omega
    · have run := @growproc_wrap boot s d sz n szLt nLow (by omega)
      by_cases empty : sz = 0
      · rw [if_pos empty] at run
        exact ⟨-1, sz, s, run, space, rfl, fun _ _ => rfl⟩
      · rw [if_neg empty] at run
        exact ⟨0, sz, s, run, space, rfl, fun _ _ => rfl⟩
  · subst zero
    refine ⟨0, sz, s, ?_, space, rfl, fun _ _ => rfl⟩
    simp only [growproc, pure_apply, gt_iff_lt, lt_irrefl, if_false]
  · rcases growproc_grow wf space.below.vacant szLt positive nHigh with
      ⟨-, newsz, s', sum, bound, run, growing⟩ | ⟨-, s', run, restored⟩
    · exact ⟨0, newsz, s', run, growing.space space (by omega) bound, growing.kept.total,
        growing.kept.others⟩
    · exact ⟨-1, sz, s', run, restored.space space, restored.kept.total, restored.kept.others⟩

/-- `exec` returns with the space of the new image, or with the old one. -/
theorem exec_space (mode : VideoMode boot) (path : List UInt8) (file : Option (List UInt8))
    {argv : List (List UInt8)} {curproc : ExecProc} (wf : Wf boot s curproc.pgdir extra)
    (space : Space boot s.mem curproc.pgdir curproc.sz)
    (short : ∀ arg ∈ argv, arg.length < 33554432) :
    ∃ result new s', exec boot path file argv curproc s = .ok ((result, new), s') ∧
      Space boot s'.mem new.pgdir new.sz ∧ total s' new.pgdir = total s curproc.pgdir ∧
      ∀ f ∉ total s curproc.pgdir, s'.mem f = s.mem f := by
  rcases exec_ends mode path file wf short with ⟨s', run, refused, -⟩ |
    ⟨contents, new, s', image, s1, -, -, -, run, executed⟩
  · have kept := wf.sameSpace refused.frames.others
    refine ⟨-1, curproc, s', run, space.congr kept, ?_, ?_⟩
    · unfold total
      rw [(space_congr kept).2.1, refused.frames.free]
    · intro f outside
      apply refused.frames.others
      intro isFree
      exact outside (mem_total.mpr (.inr isFree))
  · refine ⟨0, new, s', run, ⟨executed.below, ?_, executed.kernel⟩, executed.total,
      executed.others⟩
    rw [executed.sz, pages_mul]
    exact executed.exactly

end Spaces

/-! ## The frames of a copy -/

section Copies

variable {boot : Boot} {s s0 s' s'' : Kernel} {p d f : Frame} {rest : List Frame}
  {extra : Multiset Frame} {v sz : Nat}

/-- How a loop of `copyuvm` ends: with a copy, or with all frames but at most one
on the free list again. -/
def CopyMoves (boot : Boot) (s s0 : Kernel) (p d : Frame) (extra : Multiset Frame) (sz : Nat)
    (ended : Except VmStop (Option Frame × Kernel)) : Prop :=
  (∃ s', ended = .ok (some d, s') ∧ Copying boot s s0 s' p d extra (pages sz)) ∨
    ∃ s' lost, ended = .ok (none, s') ∧
      (s'.freelist : Multiset Frame) + lost = (s.freelist : Multiset Frame) ∧
      (∀ f ∉ s.freelist, s'.mem f = s.mem f) ∧
      (lost = 0 ∨ lost.card = 1 ∧ SplitsPair boot s.freelist.length sz)

/-- The frame of a page that gets no table is lost. -/
theorem Copying.lostFrame (copying : Copying boot s s0 s' p d extra v)
    (frames : s'.freelist = f :: rest) (page : Page)
    (released : Released ⟨Function.update s'.mem f page, rest⟩ s'' d) :
    (s''.freelist : Multiset Frame) + {f} = (s.freelist : Multiset Frame) ∧
      ∀ g ∉ s.freelist, s''.mem g = s.mem g := by
  obtain ⟨-, -, sum, -⟩ := wf_take copying.wf frames page
  have free : (s''.freelist : Multiset Frame) + {f} = (s.freelist : Multiset Frame) := by
    rw [released.free, sum, copying.total]
  refine ⟨free, ?_⟩
  intro g notFree
  have outside : g ∉ (s''.freelist : Multiset Frame) + {f} := by
    rw [free]
    exact fun isFree => notFree (Multiset.mem_coe.mp isFree)
  rw [Multiset.mem_add, not_or, released.free, Multiset.mem_singleton] at outside
  rw [released.others g outside.1]
  exact (Function.update_of_ne outside.2 _ _).trans (copying.others g notFree)

theorem copyuvmLoop_moves {fuel : Nat} (copying : Copying boot s s0 s' p d extra v)
    (parent : Parent s p (pages sz)) (szLt : sz < kernbase) (vLe : v ≤ pages sz)
    (enough : pages sz - v < fuel) :
    CopyMoves boot s s0 p d extra sz (copyuvmLoop boot p d sz fuel (v * 4096) s') := by
  have size := userPages_eq
  have top : sz < 2147483648 := szLt
  induction fuel generalizing v s' with
  | zero => omega
  | succ fuel ih =>
      by_cases inside : v * 4096 < sz
      · have vPage : v < pages sz := by
          unfold pages
          omega
        have vLt : v < userPages := by
          unfold pages at vPage
          omega
        have here := parent.present v vPage
        rw [copyuvmLoop_page copying parent vLt inside here]
        cases frames : s'.freelist with
        | nil =>
            obtain ⟨s'', run, released⟩ := freevm_none copying.wf
            have same := copying.outOfPages released
            exact .inr ⟨s'', 0, run, by rw [add_zero, same.free], same.others, .inl rfl⟩
        | cons f rest =>
            obtain ⟨-, entries, -, wfTaken⟩ := wf_take copying.wf frames
              (s'.mem (pteAddr (pte s.mem p v)))
            have vacantHere : ¬ PteP (pte (Function.update s'.mem f
                (s'.mem (pteAddr (pte s.mem p v)))) d v) := by
              rw [entries, copying.vacant v le_rfl vLt]
              decide
            simp only
            rw [mappages_page wfTaken (by omega), if_neg vacantHere]
            cases mapped : mapEntry
                ⟨Function.update s'.mem f (s'.mem (pteAddr (pte s.mem p v))), rest⟩ d v
                (f * 4096 ||| pte s.mem p v % 4096 ||| 1) with
            | none =>
                obtain ⟨missing, empty⟩ := mapEntry_none mapped
                obtain ⟨s'', run, released⟩ := freevm_none wfTaken
                obtain ⟨-, length, whole⟩ := copying.outOfTables vLt frames _ missing
                  empty released
                obtain ⟨free, others⟩ := copying.lostFrame frames _ released
                exact .inr ⟨s'', {f}, run, free, others,
                  .inr ⟨Multiset.card_singleton f, v / 1024, by omega, length⟩⟩
            | some s'' =>
                have step := copying.step parent vLt here frames mapped
                exact ih step (by omega) (by omega)
      · have done : v = pages sz := by
          unfold pages at *
          omega
        refine .inl ⟨s', ?_, done ▸ copying⟩
        simp only [copyuvmLoop, if_apply, if_neg inside, pure_apply]

/-- A page that is copied reads as the parent's. -/
theorem Copying.userByte {va : Nat} (copying : Copying boot s s0 s' p d extra v)
    (here : PteP (pte s.mem p (va / 4096))) (inside : va / 4096 < v) :
    userByte s'.mem d va = userByte s.mem p va := by
  obtain ⟨f, -, entry, bytes⟩ := copying.copied _ inside
  have flags := Copying.flags_lt (pte s.mem p (va / 4096))
  have odd : pte s.mem p (va / 4096) % 2 = 1 := here
  have same : pte s'.mem d (va / 4096) % 4096 = pte s.mem p (va / 4096) % 4096 := by
    rw [entry, or_entry f flags, or_one_of_odd (by omega)]
    omega
  have address : pteAddr (pte s'.mem d (va / 4096)) = f := entry ▸ pteAddr_entry f flags
  have allowed : (PteP (pte s'.mem d (va / 4096)) ∧ PteU (pte s'.mem d (va / 4096))) ↔
      (PteP (pte s.mem p (va / 4096)) ∧ PteU (pte s.mem p (va / 4096))) := by
    unfold PteP PteU
    omega
  unfold Vm.userByte
  simp only [allowed, address, bytes]

/-- `copyuvm` returns a copy of the parent's space, made of frames that were free,
or nothing. -/
theorem copyuvm_space (mode : VideoMode boot) (wf : FreeWf boot s extra)
    (space : Space boot s.mem p sz) (apart : ∀ f ∈ owned s.mem p, f ∉ s.freelist) :
    (∃ d s', copyuvm boot p sz s = .ok (some d, s') ∧ Space boot s'.mem d sz ∧
        total s' d = (s.freelist : Multiset Frame) ∧ (∀ f ∉ s.freelist, s'.mem f = s.mem f) ∧
        ∀ va < kernbase, userByte s'.mem d va = userByte s.mem p va) ∨
      ∃ s' lost, copyuvm boot p sz s = .ok (none, s') ∧
        (s'.freelist : Multiset Frame) + lost = (s.freelist : Multiset Frame) ∧
        (∀ f ∉ s.freelist, s'.mem f = s.mem f) ∧
        (lost = 0 ∨ lost.card = 1 ∧ SplitsPair boot s.freelist.length sz) := by
  have szLt := space.bound
  have top : sz < 2147483648 := szLt
  have size := userPages_eq
  have parent : Parent s p (pages sz) := by
    refine ⟨apart, fun v vLt => (space.below v ?_).mpr vLt⟩
    unfold pages at vLt
    omega
  rcases setupkvm_spec mode wf with ⟨-, d, s0, run, ready⟩ | ⟨-, s', run, same⟩
  · have unfolded : copyuvm boot p sz s = copyuvmLoop boot p d sz 1048577 (0 * 4096) s0 :=
      bind_of_ok run
    have enough : pages sz - 0 < 1048577 := by
      unfold pages
      omega
    rw [unfolded]
    rcases copyuvmLoop_moves (ready.copying mode p) parent szLt (Nat.zero_le _) enough with
      ⟨s', ended, copying⟩ | ended
    · refine .inl ⟨d, s', ended, ⟨szLt, ?_, ?_⟩, copying.total, copying.others, ?_⟩
      · intro v vLt
        by_cases inside : v < pages sz
        · obtain ⟨f, -, entry, -⟩ := copying.copied v inside
          rw [entry]
          exact iff_of_true (pteP_entry f (Copying.flags_lt _)) inside
        · rw [copying.vacant v (Nat.le_of_not_lt inside) vLt]
          exact iff_of_false (by decide) inside
      · have part := ready.building mode
        exact part.kernel.congr copying.kernel
      · intro va user
        have userLt : va < 2147483648 := user
        by_cases inside : va / 4096 < pages sz
        · exact copying.userByte (parent.present _ inside) inside
        · have missing : ¬ PteP (pte s.mem p (va / 4096)) := by
            rw [space.below _ (by omega)]
            exact inside
          have vacant := copying.vacant _ (Nat.le_of_not_lt inside) (by omega)
          rw [userByte_of_vacant missing, userByte_of_vacant]
          rw [vacant]
          decide
    · exact .inr ended
  · refine .inr ⟨s', 0, (bind_of_ok run).trans rfl, ?_, same.others, .inl rfl⟩
    rw [add_zero, same.free]

end Copies

end Xv6.Vm
