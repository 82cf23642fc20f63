import Xv6.FrameBuffer

/-!
# Copying an address space

`copyuvm` takes a frame for a page and then, for every 1024th page, another one
for its table.  When the second one is missing, the first is neither mapped nor
on the free list, and `freevm` does not find it.  All other failures give every
frame back.
-/

namespace Xv6.Vm

open ByteFields StateTriples

/-- The entry and the bytes of a page of the parent are the child's. -/
def PageCopied (s s' : Kernel) (p d : Frame) (v : Nat) : Prop :=
  ∃ f ∈ s.freelist, pte s'.mem d v = f * 4096 ||| pte s.mem p v % 4096 ||| 1 ∧
    s'.mem f = s.mem (pteAddr (pte s.mem p v))

/-- The frames for `v` user pages and their tables. -/
def copyFrames (v : Nat) : Nat := v + (v + 1023) / 1024

theorem copyFrames_zero {free needed all : Nat} (length : free + needed = all) :
    free + (needed + copyFrames 0) = all :=
  length

theorem copyFrames_succ (v : Nat) :
    copyFrames (v + 1) = copyFrames v + 1 + if v / 1024 * 1024 < v then 0 else 1 := by
  unfold copyFrames
  split <;> omega

/-- The state of the loop of `copyuvm` when it has copied `v` pages, since
`setupkvm` ended in state `s0`. -/
structure Copying (boot : Boot) (s s0 s' : Kernel) (p d : Frame)
    (extra : Multiset Frame) (v : Nat) : Prop where
  wf : Wf boot s' d extra
  total : total s' d = (s.freelist : Multiset Frame)
  others : ∀ f ∉ s.freelist, s'.mem f = s.mem f
  copied : ∀ u < v, PageCopied s s' p d u
  vacant : ∀ u, v ≤ u → u < userPages → pte s'.mem d u = 0
  kernel : ∀ u, userPages ≤ u → pte s'.mem d u = pte s0.mem d u
  tables : ∀ i < 512, (tableOf s'.mem d i).isSome ↔ i * 1024 < v
  length : s'.freelist.length + (kernelFrames boot + copyFrames v) = s.freelist.length

/-- The parent: no frame of its address space is free, and its pages below `n` are
present. -/
structure Parent (s : Kernel) (p : Frame) (n : Nat) : Prop where
  apart : ∀ f ∈ owned s.mem p, f ∉ s.freelist
  present : ∀ v < n, PteP (pte s.mem p v)

theorem KernelReady.copying {boot : Boot} {s s0 : Kernel} {d : Frame}
    {extra : Multiset Frame} (mode : VideoMode boot)
    (ready : KernelReady boot s s0 d extra) (p : Frame) :
    Copying boot s s0 s0 p d extra 0 := by
  have user (u : Nat) (uLt : u < userPages) : pte s0.mem d u = 0 :=
    ready.rest u fun k isHere => (kmap_valid mode k isHere).not_covers_user uLt
  refine ⟨ready.wf, ready.total, ready.others, fun u uLt => ?_, fun u _ => user u,
    fun _ _ => rfl, fun i iLt => ?_, ?_⟩
  · omega
  · rw [ready.tables]
    refine iff_of_false ?_ (by omega)
    rintro ⟨k, isHere, u, low, _, index⟩
    have kernel := (kmap_valid mode k isHere).user_le
    have size := userPages_eq
    omega
  · exact copyFrames_zero ready.length

/-- The parent's entries are read from frames that are not free. -/
theorem Parent.pte_eq {s s' : Kernel} {p : Frame} {n : Nat} (parent : Parent s p n)
    (others : ∀ f ∉ s.freelist, s'.mem f = s.mem f) :
    (∀ i, tableOf s'.mem p i = tableOf s.mem p i) ∧
      ∀ v, pte s'.mem p v = pte s.mem p v := by
  have tables (i : Nat) : tableOf s'.mem p i = tableOf s.mem p i := by
    unfold tableOf entry
    rw [others p (parent.apart p (mem_owned.mpr (.inl rfl)))]
  refine ⟨tables, fun v => ?_⟩
  unfold pte
  rw [tables]
  split
  · rename_i t found
    unfold entry
    rw [others t (parent.apart t (mem_owned.mpr (.inr (.inl ⟨_, found⟩))))]
  · rfl

section Step

variable {boot : Boot} {s s0 s' s'' : Kernel} {p d f : Frame} {rest : List Frame}
  {extra : Multiset Frame} {v n : Nat}

theorem Copying.flags_lt (e : Nat) : e % 4096 < 4096 :=
  Nat.mod_lt _ (by decide)

/-- One page is copied and mapped. -/
theorem Copying.step (copying : Copying boot s s0 s' p d extra v)
    (parent : Parent s p n) (vLt : v < userPages) (here : PteP (pte s.mem p v))
    (frames : s'.freelist = f :: rest)
    (mapped : mapEntry
      ⟨Function.update s'.mem f (s'.mem (pteAddr (pte s.mem p v))), rest⟩ d v
      (f * 4096 ||| pte s.mem p v % 4096 ||| 1) = some s'') :
    Copying boot s s0 s'' p d extra (v + 1) := by
  have size := userPages_eq
  have flags := Copying.flags_lt (pte s.mem p v)
  obtain ⟨tables, entries, sum, wfTaken⟩ := wf_take copying.wf frames
    (s'.mem (pteAddr (pte s.mem p v)))
  have isListed : f ∈ s'.freelist := frames ▸ List.mem_cons_self
  have fromStart (g : Frame) (inTotal : g ∈ Vm.total s' d) : g ∈ s.freelist := by
    rw [copying.total] at inTotal
    exact Multiset.mem_coe.mp inTotal
  have isFree : f ∈ s.freelist := fromStart f (mem_total.mpr (.inr isListed))
  have bound : f < 131072 := managed_lt (copying.wf.managed_free isListed)
  have small := entry_lt_of_frame (bound.trans (by decide : 131072 < 1048576)) flags
  have vacantHere : ¬ PteP (pte (Function.update s'.mem f
      (s'.mem (pteAddr (pte s.mem p v)))) d v) := by
    rw [entries, copying.vacant v le_rfl vLt]
    decide
  have done := mapEntry_mapped wfTaken.separate (by omega) vacantHere (pteP_entry f flags) small
    mapped
  have length := mapEntry_length mapped
  have total' : Vm.total s'' d = Vm.total s' d := by
    rw [done.user vLt, pteAddr_entry f flags, ← sum]
  have pteEq (u : Nat) : pte s''.mem d u =
      if u = v then f * 4096 ||| pte s.mem p v % 4096 ||| 1 else pte s'.mem d u := by
    rw [done.pte, entries]
  have newPage : s''.mem f = s'.mem (pteAddr (pte s.mem p v)) := by
    have notTotal := wfTaken.extra_notTotal
      (Multiset.mem_add.mpr (.inl (Multiset.mem_singleton_self f)))
    rw [mem_total, not_or] at notTotal
    obtain ⟨notDir, notTable⟩ := Wf.notTable_of_notOwned notTotal.1
    rw [done.mem f (Ne.symm notDir) notTable notTotal.2]
    exact Function.update_self _ _ _
  have source : s'.mem (pteAddr (pte s.mem p v)) = s.mem (pteAddr (pte s.mem p v)) := by
    refine copying.others _ (parent.apart _ (mem_owned.mpr (.inr (.inr ?_))))
    exact ⟨v, vLt, here, rfl⟩
  refine ⟨copying.wf.congr (by rw [total']), total'.trans copying.total,
    fun g notFree => ?_, fun u uLt => ?_, fun u low uLt => ?_, fun u kernel => ?_,
    fun i iLt => ?_, ?_⟩
  · have notTotal : g ∉ Vm.total s' d := fun inTotal => notFree (fromStart g inTotal)
    have notF : g ≠ f := fun same => notFree (same ▸ isFree)
    have outside : g ∉ Vm.total
        ⟨Function.update s'.mem f (s'.mem (pteAddr (pte s.mem p v))), rest⟩ d := by
      intro inTotal
      refine notTotal ?_
      rw [← sum]
      exact Multiset.mem_add.mpr (.inl inTotal)
    rw [done.others outside]
    exact (Function.update_of_ne notF _ _).trans (copying.others g notFree)
  · by_cases isNew : u = v
    · subst isNew
      exact ⟨f, isFree, by rw [pteEq, if_pos rfl], newPage.trans source⟩
    · obtain ⟨g, gFree, entry, bytes⟩ := copying.copied u (by omega)
      refine ⟨g, gFree, by rw [pteEq, if_neg isNew, entry], ?_⟩
      -- The frame of an earlier page is neither a table nor free.
      have gFlags := Copying.flags_lt (pte s.mem p u)
      have gHere : PteP (pte s'.mem d u) := entry ▸ pteP_entry g gFlags
      have gAddress : pteAddr (pte s'.mem d u) = g := entry ▸ pteAddr_entry g gFlags
      obtain ⟨notDir, notTable⟩ := copying.wf.page_notTable (by omega) gHere
      rw [gAddress] at notDir notTable
      have notListed : g ∉ s'.freelist := fun isListed =>
        copying.wf.free_notOwned isListed (mem_owned.mpr
          (.inr (.inr ⟨u, by omega, gHere, gAddress⟩)))
      have notF : g ≠ f := fun same => notListed (same ▸ isListed)
      rw [done.mem g notDir (fun i => by rw [tables]; exact notTable i)
        (fun inRest => notListed (frames ▸ List.mem_cons_of_mem f inRest))]
      exact (Function.update_of_ne notF _ _).trans bytes
  · rw [pteEq, if_neg (by omega)]
    exact copying.vacant u (by omega) uLt
  · rw [pteEq, if_neg (by omega)]
    exact copying.kernel u kernel
  · rw [done.tables_iff, tables, copying.tables i iLt]
    omega
  · have before := copying.length
    rw [frames, List.length_cons] at before
    simp only [tables, copying.tables (v / 1024) (by omega)] at length
    have next := copyFrames_succ v
    generalize kernelFrames boot = needed at before ⊢
    omega

/-- The allocator is out of frames for a page: everything is given back. -/
theorem Copying.outOfPages (copying : Copying boot s s0 s' p d extra v)
    (released : Released s' s'' d) : SameFrames s s'' := by
  refine ⟨released.free.trans copying.total, fun f notFree => ?_⟩
  rw [released.others f ?_, copying.others f notFree]
  rw [copying.total]
  exact fun isFree => notFree (Multiset.mem_coe.mp isFree)

/-- The allocator is out of frames for a table: the frame of the page is lost. -/
theorem Copying.outOfTables (copying : Copying boot s s0 s' p d extra v)
    (vLt : v < userPages) (frames : s'.freelist = f :: rest) (page : Page)
    (missing : tableOf (Function.update s'.mem f page) d (v / 1024) = none)
    (empty : rest = [])
    (released : Released ⟨Function.update s'.mem f page, rest⟩ s'' d) :
    s''.freelist.length + 1 = s.freelist.length ∧
      s.freelist.length = kernelFrames boot + 1025 * (v / 1024) + 1 ∧
      v / 1024 * 1024 = v := by
  have size := userPages_eq
  obtain ⟨tables, _, sum, _⟩ := wf_take copying.wf frames page
  have lost : s''.freelist.length + 1 = s.freelist.length := by
    have counted := congrArg Multiset.card sum
    rw [← released.free, copying.total, Multiset.card_add, Multiset.card_singleton,
      Multiset.coe_card, Multiset.coe_card] at counted
    exact counted
  have whole : ¬ v / 1024 * 1024 < v := by
    rw [← copying.tables _ (by omega), ← tables, missing]
    decide
  have length := copying.length
  rw [frames, empty, List.length_cons, List.length_nil] at length
  generalize kernelFrames boot = needed at length ⊢
  unfold copyFrames at length
  omega

end Step

section Loop

variable {boot : Boot} {s s0 s' : Kernel} {p d : Frame} {extra : Multiset Frame}
  {v sz : Nat}

/-- How the loop of `copyuvm` ends. -/
def CopyEnds (boot : Boot) (s s0 : Kernel) (p d : Frame) (extra : Multiset Frame)
    (sz : Nat) (ended : Except VmStop (Option Frame × Kernel)) : Prop :=
  (∃ s', ended = .ok (some d, s') ∧ Copying boot s s0 s' p d extra (pages sz)) ∨
    (∃ s' v, ended = .ok (none, s') ∧ SameFrames s s' ∧
      s.freelist.length = kernelFrames boot + copyFrames v) ∨
    ∃ s' j, ended = .ok (none, s') ∧ s'.freelist.length + 1 = s.freelist.length ∧
      1024 * j < pages sz ∧ s.freelist.length = kernelFrames boot + 1025 * j + 1

/-- One iteration of the loop at a page of the parent, up to its allocation. -/
theorem copyuvmLoop_page {fuel : Nat} (copying : Copying boot s s0 s' p d extra v)
    (parent : Parent s p (pages sz)) (vLt : v < userPages) (inside : v * 4096 < sz)
    (here : PteP (pte s.mem p v)) :
    copyuvmLoop boot p d sz (fuel + 1) (v * 4096) s' =
      (match s'.freelist with
      | [] => (do freevm boot d; return none : KernelM (Option Frame)) s'
      | f :: rest =>
          match mappages d (v * 4096) 4096 (f * 4096) (pte s.mem p v % 4096)
            ⟨Function.update s'.mem f (s'.mem (pteAddr (pte s.mem p v))), rest⟩ with
          | .ok (result, s'') =>
              if result < 0 then
                (do freevm boot d; return none : KernelM (Option Frame)) s''
              else copyuvmLoop boot p d sz fuel ((v + 1) * 4096) s''
          | .error stop => .error stop) := by
  have size := userPages_eq
  obtain ⟨tables, entries⟩ := parent.pte_eq copying.others
  obtain ⟨t, found⟩ := exists_table here
  have walked : walkpgdir s'.mem p (v * 4096) = some (t, v % 1024) := by
    rw [walkpgdir_eq, pdx_page (by omega), ptx_page, tables, found]
    rfl
  have entryEq : entry s'.mem t (v % 1024) = pte s.mem p v := by
    rw [← pte_of_table ((tables _).trans found), entries]
  have next : (v * 4096 + 4096) % 4294967296 = (v + 1) * 4096 := by omega
  cases frames : s'.freelist with
  | nil =>
      simp only [copyuvmLoop, if_apply, if_pos inside, bind_apply, get_apply, walked,
        entryEq, if_neg (not_not_intro here), kalloc_nil frames]
  | cons f rest =>
      simp only [copyuvmLoop, if_apply, if_pos inside, bind_apply, get_apply, walked,
        entryEq, if_neg (not_not_intro here), kalloc_cons frames, storePage,
        modify_apply, next]
      cases mappages d (v * 4096) 4096 (f * 4096) (pte s.mem p v % 4096)
        ⟨Function.update s'.mem f (s'.mem (pteAddr (pte s.mem p v))), rest⟩ with
      | error stop => rfl
      | ok pair => rfl

theorem freevm_none {q : Kernel} (wf : Wf boot q d extra) :
    ∃ s', (do freevm boot d; return none : KernelM (Option Frame)) q = .ok (none, s') ∧
      Released q s' d := by
  obtain ⟨s', run, released⟩ := freevm_spec wf
  exact ⟨s', bind_of_ok run, released⟩

/-- The loop of `copyuvm` copies every page, or gives every frame back, or loses
one. -/
theorem copyuvmLoop_ends {fuel : Nat} (copying : Copying boot s s0 s' p d extra v)
    (parent : Parent s p (pages sz)) (szLt : sz < kernbase) (vLe : v ≤ pages sz)
    (enough : pages sz - v < fuel) :
    CopyEnds boot s s0 p d extra sz (copyuvmLoop boot p d sz fuel (v * 4096) s') := by
  have size := userPages_eq
  have top : sz < 2147483648 := szLt
  induction fuel generalizing v s' with
  | zero => omega
  | succ fuel ih =>
      by_cases inside : v * 4096 < sz
      · have vPage : v < pages sz := by
          unfold pages
          omega
        have vLt : v < userPages := by
          unfold pages at vPage
          omega
        have here := parent.present v vPage
        have flags := Copying.flags_lt (pte s.mem p v)
        rw [copyuvmLoop_page copying parent vLt inside here]
        cases frames : s'.freelist with
        | nil =>
            obtain ⟨s'', run, released⟩ := freevm_none copying.wf
            have length := copying.length
            rw [frames, List.length_nil, Nat.zero_add] at length
            exact .inr (.inl ⟨s'', v, run, copying.outOfPages released, length.symm⟩)
        | cons f rest =>
            obtain ⟨_, entries, _, wfTaken⟩ := wf_take copying.wf frames
              (s'.mem (pteAddr (pte s.mem p v)))
            have vacantHere : ¬ PteP (pte (Function.update s'.mem f
                (s'.mem (pteAddr (pte s.mem p v)))) d v) := by
              rw [entries, copying.vacant v le_rfl vLt]
              decide
            simp only
            rw [mappages_page wfTaken (by omega), if_neg vacantHere]
            cases mapped : mapEntry
                ⟨Function.update s'.mem f (s'.mem (pteAddr (pte s.mem p v))), rest⟩ d v
                (f * 4096 ||| pte s.mem p v % 4096 ||| 1) with
            | none =>
                obtain ⟨missing, empty⟩ := mapEntry_none mapped
                obtain ⟨s'', run, released⟩ := freevm_none wfTaken
                obtain ⟨lost, length, whole⟩ := copying.outOfTables vLt frames _ missing
                  empty released
                exact .inr (.inr ⟨s'', v / 1024, run, lost, by omega, length⟩)
            | some s'' =>
                have step := copying.step parent vLt here frames mapped
                exact ih step (by omega) (by omega)
      · have done : v = pages sz := by
          unfold pages at *
          omega
        refine .inl ⟨s', ?_, done ▸ copying⟩
        simp only [copyuvmLoop, if_apply, if_neg inside, pure_apply]

end Loop

theorem or_one_of_odd {perm : Nat} (odd : perm % 2 = 1) : perm ||| 1 = perm := by
  have split : perm = 2 ^ 1 * (perm / 2) ||| 1 := by
    rw [← Nat.two_pow_add_eq_or_of_lt (by decide : 1 < 2 ^ 1)]
    omega
  rw [split, Nat.or_assoc]
  rfl

/-- The child has its own frame for every page of the parent, with the parent's
bytes and flags, and no other user page. -/
structure SpaceCopied (boot : Boot) (s s' : Kernel) (p d : Frame)
    (extra : Multiset Frame) (n : Nat) : Prop where
  own : Wf boot s' d extra
  copied : ∀ v < n, ∃ f ∈ s.freelist,
    PteP (pte s'.mem d v) ∧ pteAddr (pte s'.mem d v) = f ∧
      pte s'.mem d v % 4096 = pte s.mem p v % 4096 ∧
      s'.mem f = s.mem (pteAddr (pte s.mem p v))
  only : ∀ v, n ≤ v → v < userPages → ¬ PteP (pte s'.mem d v)

theorem Copying.spaceCopied {boot : Boot} {s s0 s' : Kernel} {p d : Frame}
    {extra : Multiset Frame} {n : Nat} (copying : Copying boot s s0 s' p d extra n)
    (parent : Parent s p n) : SpaceCopied boot s s' p d extra n := by
  refine ⟨copying.wf, fun v vLt => ?_, fun v low vLt => ?_⟩
  · obtain ⟨f, isFree, entry, bytes⟩ := copying.copied v vLt
    have flags := Copying.flags_lt (pte s.mem p v)
    refine ⟨f, isFree, ?_, ?_, ?_, bytes⟩
    · exact entry ▸ pteP_entry f flags
    · exact entry ▸ pteAddr_entry f flags
    · have here : pte s.mem p v % 2 = 1 := parent.present v vLt
      rw [entry, or_entry f flags, or_one_of_odd (by omega)]
      omega
  · rw [copying.vacant v low vLt]
    decide

/-- `copyuvm` copies the parent, or gives every frame back; and it changes no
frame that was not free. -/
def CopiesCleanly (boot : Boot) (s : Kernel) (p : Frame) (extra : Multiset Frame)
    (sz : Nat) : Prop :=
  ∃ result s', copyuvm boot p sz s = .ok (result, s') ∧
    (∀ f ∉ s.freelist, s'.mem f = s.mem f) ∧
    match result with
    | some d => SpaceCopied boot s s' p d extra (pages sz)
    | none => (s'.freelist : Multiset Frame) = (s.freelist : Multiset Frame)

/-- The free list ends between a page and its table. -/
def SplitsPair (boot : Boot) (free sz : Nat) : Prop :=
  ∃ j, 1024 * j < pages sz ∧ free = kernelFrames boot + 1025 * j + 1

/-- How `copyuvm` ends. -/
theorem copyuvm_ends {boot : Boot} {s : Kernel} {p : Frame} {extra : Multiset Frame}
    {sz : Nat} (mode : VideoMode boot) (wf : FreeWf boot s extra)
    (parent : Parent s p (pages sz)) (szLt : sz < kernbase) :
    (¬ SplitsPair boot s.freelist.length sz ∧ ∃ d s',
        copyuvm boot p sz s = .ok (some d, s') ∧
        (∀ f ∉ s.freelist, s'.mem f = s.mem f) ∧
        SpaceCopied boot s s' p d extra (pages sz)) ∨
      (¬ SplitsPair boot s.freelist.length sz ∧ ∃ s',
        copyuvm boot p sz s = .ok (none, s') ∧ SameFrames s s') ∨
      (SplitsPair boot s.freelist.length sz ∧ ∃ s',
        copyuvm boot p sz s = .ok (none, s') ∧
        s'.freelist.length + 1 = s.freelist.length) := by
  rcases setupkvm_spec mode wf with ⟨_, d, s0, run, ready⟩ | ⟨few, s', run, same⟩
  · have unfolded : copyuvm boot p sz s = copyuvmLoop boot p d sz 1048577 (0 * 4096) s0 :=
      bind_of_ok run
    have enough : pages sz - 0 < 1048577 := by
      have top : sz < 2147483648 := szLt
      unfold pages
      omega
    rw [unfolded]
    generalize neededEq : kernelFrames boot = needed at *
    rcases copyuvmLoop_ends (ready.copying mode p) parent szLt (Nat.zero_le _) enough with
      ⟨s', ended, copying⟩ | ⟨s', v, ended, same, length⟩ | ⟨s', j, ended, lost, inside, length⟩
    · refine .inl ⟨?_, d, s', ended, copying.others, copying.spaceCopied parent⟩
      rintro ⟨j, inside, free⟩
      have length := copying.length
      unfold copyFrames at length
      rw [neededEq] at *
      omega
    · refine .inr (.inl ⟨?_, s', ended, same⟩)
      rintro ⟨j, inside, free⟩
      unfold copyFrames at length
      rw [neededEq] at *
      omega
    · exact .inr (.inr ⟨⟨j, inside, length⟩, s', ended, lost⟩)
  · refine .inr (.inl ⟨?_, s', (bind_of_ok run).trans rfl, same⟩)
    rintro ⟨j, _, free⟩
    omega

/-- `copyuvm` copies or gives everything back exactly when the free list does not
end between a page and its table. -/
theorem copiesCleanly_iff {boot : Boot} {s : Kernel} {p : Frame}
    {extra : Multiset Frame} {sz : Nat} (mode : VideoMode boot)
    (wf : FreeWf boot s extra) (parent : Parent s p (pages sz)) (szLt : sz < kernbase) :
    CopiesCleanly boot s p extra sz ↔ ¬ SplitsPair boot s.freelist.length sz := by
  rcases copyuvm_ends mode wf parent szLt with
    ⟨fits, d, s', run, others, copied⟩ | ⟨fits, s', run, same⟩ | ⟨splits, s', run, lost⟩
  · exact iff_of_true ⟨some d, s', run, others, copied⟩ fits
  · exact iff_of_true ⟨none, s', run, same.others, same.free⟩ fits
  · refine iff_of_false ?_ (not_not_intro splits)
    rintro ⟨result, last, ended, _, clean⟩
    rw [run] at ended
    cases ended
    have lengths := congrArg Multiset.card clean
    rw [Multiset.coe_card, Multiset.coe_card] at lengths
    omega

end Xv6.Vm
