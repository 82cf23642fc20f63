import Xv6.UserSizes

/-!
# Mapping ranges of kernel pages

What `mappages` does to a range of pages above `KERNBASE`: it maps every page of
the range, or it stops at the first page whose table cannot be allocated.  The
tables that are there after it say how many frames were needed, because the
frames of the address space and of the free list stay the same together.
-/

namespace Xv6.Vm

open ByteFields StateTriples

/-- The entry that `mappages` stores for page `u` of a range that starts at page
`lo` and at the physical address `pa`. -/
def rangeEntry (lo pa perm u : Nat) : Nat :=
  (pa + (u - lo) * 4096) % 4294967296 ||| perm ||| 1

theorem pteP_rangeEntry (lo pa perm u : Nat) : PteP (rangeEntry lo pa perm u) := by
  unfold PteP rangeEntry
  simp [Nat.or_mod_two_eq_one]

theorem rangeEntry_lt (lo pa : Nat) {perm : Nat} (u : Nat) (permLt : perm < 2 ^ 32) :
    rangeEntry lo pa perm u < 4294967296 := by
  have address : (pa + (u - lo) * 4096) % 4294967296 < 2 ^ 32 := Nat.mod_lt _ (by decide)
  exact Nat.or_lt_two_pow (Nat.or_lt_two_pow address permLt) (by decide)

theorem rangeEntry_succ (lo pa perm : Nat) {u : Nat} (above : lo + 1 ≤ u) :
    rangeEntry (lo + 1) ((pa + 4096) % 4294967296) perm u = rangeEntry lo pa perm u := by
  have address : ((pa + 4096) % 4294967296 + (u - (lo + 1)) * 4096) % 4294967296 =
      (pa + (u - lo) * 4096) % 4294967296 := by omega
  unfold rangeEntry
  rw [address]

/-- Index `i` of the directory is that of a page of the range. -/
def InRange (lo n i : Nat) : Prop := ∃ u, lo ≤ u ∧ u < lo + n ∧ u / 1024 = i

theorem inRange_iff {lo n i : Nat} :
    (0 < n ∧ lo / 1024 ≤ i ∧ i * 1024 < lo + n) ↔ InRange lo n i := by
  constructor
  · rintro ⟨positive, low, high⟩
    by_cases inside : lo ≤ i * 1024
    · exact ⟨i * 1024, inside, high, by omega⟩
    · exact ⟨lo, le_rfl, by omega, by omega⟩
  · rintro ⟨u, low, high, rfl⟩
    omega

instance (lo n i : Nat) : Decidable (InRange lo n i) :=
  decidable_of_iff _ inRange_iff

/-- The range is mapped, and every frame is still there. -/
structure RangeMapped (s s' : Kernel) (d : Frame) (lo n pa perm : Nat) : Prop where
  pte : ∀ u, pte s'.mem d u =
    if lo ≤ u ∧ u < lo + n then rangeEntry lo pa perm u else pte s.mem d u
  tables : ∀ i, (tableOf s'.mem d i).isSome ↔
    (tableOf s.mem d i).isSome ∨ InRange lo n i
  total : total s' d = total s d
  others : ∀ f ∉ Vm.total s d, s'.mem f = s.mem f

/-- The allocator has run out of frames for one of the wanted tables. -/
structure OutOfTables (s s' : Kernel) (d : Frame) (wanted : Nat → Prop) : Prop where
  free : s'.freelist = []
  user : ∀ u < userPages, pte s'.mem d u = pte s.mem d u
  tables : ∀ i, (tableOf s'.mem d i).isSome → (tableOf s.mem d i).isSome ∨ wanted i
  missing : ∃ i, wanted i ∧ tableOf s'.mem d i = none
  total : total s' d = total s d
  others : ∀ f ∉ Vm.total s d, s'.mem f = s.mem f

theorem EntryMapped.tables_iff {s s' : Kernel} {d : Frame} {v e : Nat}
    (mapped : EntryMapped s s' d v e) (i : Nat) :
    (tableOf s'.mem d i).isSome ↔ (tableOf s.mem d i).isSome ∨ i = v / 1024 := by
  by_cases same : i = v / 1024
  · subst same
    exact iff_of_true mapped.table (.inr rfl)
  · rw [mapped.tables i same]
    exact (or_iff_left same).symm

theorem EntryMapped.others {s s' : Kernel} {d : Frame} {v e : Nat}
    (mapped : EntryMapped s s' d v e) {f : Frame} (outside : f ∉ Vm.total s d) :
    s'.mem f = s.mem f := by
  rw [mem_total, not_or] at outside
  obtain ⟨notDir, notTable⟩ := Wf.notTable_of_notOwned outside.1
  exact mapped.mem f (Ne.symm notDir) notTable outside.2

theorem inRange_succ {lo n i : Nat} :
    InRange lo (n + 1) i ↔ i = lo / 1024 ∨ InRange (lo + 1) n i := by
  constructor
  · rintro ⟨u, low, high, rfl⟩
    by_cases first : u = lo
    · exact .inl (by rw [first])
    · exact .inr ⟨u, by omega, by omega, rfl⟩
  · rintro (rfl | ⟨u, low, high, rfl⟩)
    · exact ⟨lo, le_rfl, by omega, rfl⟩
    · exact ⟨u, by omega, by omega, rfl⟩

/-- One more page in front of a mapped range. -/
theorem RangeMapped.cons {s s1 s' : Kernel} {d : Frame} {lo n pa perm : Nat}
    (first : EntryMapped s s1 d lo (rangeEntry lo pa perm lo)) (kernel : userPages ≤ lo)
    (rest : RangeMapped s1 s' d (lo + 1) n ((pa + 4096) % 4294967296) perm) :
    RangeMapped s s' d lo (n + 1) pa perm := by
  have totals := first.kernel kernel
  refine ⟨fun u => ?_, fun i => ?_, rest.total.trans totals, fun f outside => ?_⟩
  · rw [rest.pte, first.pte]
    by_cases isFirst : u = lo
    · subst isFirst
      rw [if_neg (by omega), if_pos rfl, if_pos (by omega)]
    · rw [if_neg isFirst]
      by_cases inside : lo + 1 ≤ u ∧ u < lo + 1 + n
      · rw [if_pos inside, if_pos (by omega), rangeEntry_succ lo pa perm inside.1]
      · rw [if_neg inside, if_neg (by omega)]
  · rw [rest.tables, first.tables_iff, inRange_succ, or_assoc]
  · rw [rest.others f (by rw [totals]; exact outside), first.others outside]

theorem OutOfTables.cons {s s1 s' : Kernel} {d : Frame} {lo n e : Nat}
    (first : EntryMapped s s1 d lo e) (kernel : userPages ≤ lo)
    (rest : OutOfTables s1 s' d (InRange (lo + 1) n)) :
    OutOfTables s s' d (InRange lo (n + 1)) := by
  have totals := first.kernel kernel
  refine ⟨rest.free, fun u uLt => ?_, fun i found => ?_, ?_,
    rest.total.trans totals, fun f outside => ?_⟩
  · rw [rest.user u uLt, first.pte, if_neg (by omega)]
  · rw [inRange_succ, ← or_assoc, ← first.tables_iff]
    exact rest.tables i found
  · obtain ⟨i, inRange, missing⟩ := rest.missing
    exact ⟨i, inRange_succ.mpr (.inr inRange), missing⟩
  · rw [rest.others f (by rw [totals]; exact outside), first.others outside]

/-- One iteration of the loop of `mappages` at a vacant page. -/
theorem mappagesLoop_vacant {s : Kernel} {d : Frame} {lo pa perm : Nat}
    (separate : Separate s d) (loLt : lo < 1048576) (vacant : ¬ PteP (pte s.mem d lo))
    (permLt : perm < 2 ^ 32) (paLt : pa < 4294967296) (last fuel : Nat) :
    (∃ s', mapEntry s d lo (rangeEntry lo pa perm lo) = some s' ∧
        EntryMapped s s' d lo (rangeEntry lo pa perm lo) ∧
        mappagesLoop d perm last (fuel + 1) (lo * 4096) pa s =
          if lo * 4096 = last then .ok (0, s')
          else mappagesLoop d perm last fuel ((lo * 4096 + 4096) % 4294967296)
            ((pa + 4096) % 4294967296) s') ∨
      (mappagesLoop d perm last (fuel + 1) (lo * 4096) pa s = .ok (-1, s) ∧
        tableOf s.mem d (lo / 1024) = none ∧ s.freelist = []) := by
  have first : pa ||| perm ||| 1 = rangeEntry lo pa perm lo := by
    unfold rangeEntry
    rw [Nat.sub_self, Nat.zero_mul, Nat.add_zero, Nat.mod_eq_of_lt paLt]
  rw [mappagesLoop_succ separate loLt, if_neg vacant, first]
  cases mapped : mapEntry s d lo (rangeEntry lo pa perm lo) with
  | none => exact .inr ⟨rfl, mapEntry_none mapped⟩
  | some s' =>
      refine .inl ⟨s', rfl, ?_, rfl⟩
      exact mapEntry_mapped separate loLt vacant (pteP_rangeEntry lo pa perm lo)
        (rangeEntry_lt lo pa lo permLt) mapped

/-- A range of one page. -/
theorem EntryMapped.range {s s' : Kernel} {d : Frame} {lo pa perm : Nat}
    (mapped : EntryMapped s s' d lo (rangeEntry lo pa perm lo))
    (kernel : userPages ≤ lo) : RangeMapped s s' d lo 1 pa perm := by
  refine ⟨fun u => ?_, fun i => ?_, mapped.kernel kernel, fun f => mapped.others⟩
  · rw [mapped.pte]
    by_cases isFirst : u = lo
    · rw [if_pos isFirst, if_pos (by omega), isFirst]
    · rw [if_neg isFirst, if_neg (by omega)]
  · rw [mapped.tables_iff, inRange_succ]
    refine or_congr_right ⟨.inl, ?_⟩
    rintro (same | ⟨u, low, high, _⟩)
    · exact same
    · omega

/-- The loop of `mappages` over a vacant range above `KERNBASE`. -/
theorem mappagesLoop_range {boot : Boot} {s : Kernel} {d : Frame}
    {extra : Multiset Frame} {lo n pa perm fuel : Nat} (wf : Wf boot s d extra)
    (kernel : userPages ≤ lo) (bound : lo + (n + 1) ≤ 1048576)
    (vacant : ∀ u, lo ≤ u → u < lo + (n + 1) → ¬ PteP (pte s.mem d u))
    (permLt : perm < 4096) (paLt : pa < 4294967296) (enough : n < fuel) :
    (∃ s', mappagesLoop d perm ((lo + n) * 4096) fuel (lo * 4096) pa s = .ok (0, s') ∧
        RangeMapped s s' d lo (n + 1) pa perm) ∨
      ∃ s', mappagesLoop d perm ((lo + n) * 4096) fuel (lo * 4096) pa s = .ok (-1, s') ∧
        OutOfTables s s' d (InRange lo (n + 1)) := by
  induction fuel generalizing lo n pa s with
  | zero => omega
  | succ fuel ih =>
      rcases mappagesLoop_vacant wf.separate (by omega) (vacant lo le_rfl (by omega))
        (permLt.trans (by decide)) paLt ((lo + n) * 4096) fuel with
        ⟨s1, -, done, run⟩ | ⟨run, missing, frames⟩
      · cases n with
        | zero =>
            rw [if_pos (by omega)] at run
            exact .inl ⟨s1, run, done.range kernel⟩
        | succ n =>
            have wf1 : Wf boot s1 d extra := wf.congr (by rw [done.kernel kernel])
            have vacant1 (u : Nat) (low : lo + 1 ≤ u) (high : u < lo + 1 + (n + 1)) :
                ¬ PteP (pte s1.mem d u) := by
              rw [done.pte, if_neg (by omega)]
              exact vacant u (by omega) (by omega)
            rw [if_neg (by omega),
              show (lo * 4096 + 4096) % 4294967296 = (lo + 1) * 4096 by omega,
              show lo + (n + 1) = lo + 1 + n by omega] at run
            have pa1Lt : (pa + 4096) % 4294967296 < 4294967296 :=
              Nat.mod_lt _ (by decide)
            rw [show lo + (n + 1) = lo + 1 + n by omega, run]
            rcases ih wf1 (by omega) (by omega) vacant1 pa1Lt (by omega) with
              ⟨s', ended, rest⟩ | ⟨s', ended, rest⟩
            · exact .inl ⟨s', ended, rest.cons done kernel⟩
            · exact .inr ⟨s', ended, rest.cons done kernel⟩
      · exact .inr ⟨s, run, frames, fun _ _ => rfl, fun _ found => .inl found,
          ⟨lo / 1024, ⟨lo, le_rfl, by omega, rfl⟩, missing⟩, rfl, fun _ _ => rfl⟩

end Xv6.Vm
