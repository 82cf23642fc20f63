import Xv6.PageRanges

/-!
# What `mappages` maps

`mappages` on any range of vacant pages, of the user part or the kernel part of the
address space, up to the last page: it maps the pages of the range one after another,
and where the allocator has no frame for a table it returns with those mapped that
come before.  The directory, its tables and the free frames are different frames
throughout, so that a store to one entry or a new table changes one translation at
most.
-/

namespace Xv6.Vm

open ByteFields StateTriples

/-- The first pages of a range are mapped, all other translations are as they were, and
tables are only added. -/
structure PrefixMapped (s s' : Kernel) (d : Frame) (lo n pa perm : Nat) : Prop where
  pte : ∀ u, pte s'.mem d u =
    if lo ≤ u ∧ u < lo + n then rangeEntry lo pa perm u else pte s.mem d u
  kept : ∀ k t, tableOf s.mem d k = some t → tableOf s'.mem d k = some t
  separate : Separate s' d

variable {s s1 s' : Kernel} {d : Frame} {lo n pa perm : Nat}

theorem PrefixMapped.zero (separate : Separate s d) : PrefixMapped s s d lo 0 pa perm := by
  refine ⟨fun u => ?_, fun _ _ found => found, separate⟩
  rw [if_neg (by omega)]

/-- One more page in front of the pages that are mapped. -/
theorem PrefixMapped.cons (separate : Separate s d) (loLt : lo < 1048576)
    (stored : mapEntry s d lo (rangeEntry lo pa perm lo) = some s1)
    (first : EntryMapped s s1 d lo (rangeEntry lo pa perm lo))
    (rest : PrefixMapped s1 s' d (lo + 1) n ((pa + 4096) % 4294967296) perm) :
    PrefixMapped s s' d lo (n + 1) pa perm := by
  have kept := (mapEntry_separate separate loLt stored).2
  refine ⟨fun u => ?_, fun k t found => rest.kept k t (kept k t found), rest.separate⟩
  rw [rest.pte, first.pte]
  by_cases isFirst : u = lo
  · subst isFirst
    rw [if_neg (by omega), if_pos rfl, if_pos (by omega)]
  · rw [if_neg isFirst]
    by_cases inside : lo + 1 ≤ u ∧ u < lo + 1 + n
    · rw [if_pos inside, if_pos (by omega), rangeEntry_succ lo pa perm inside.1]
    · rw [if_neg inside, if_neg (by omega)]

/-- A table that was not there has no present entry but those of the mapped pages. -/
theorem PrefixMapped.created (mapped : PrefixMapped s s' d lo n pa perm) {i t k : Nat}
    (missing : tableOf s.mem d i = none) (found : tableOf s'.mem d i = some t)
    (kLt : k < 1024) (present : PteP (entry s'.mem t k)) :
    lo ≤ i * 1024 + k ∧ i * 1024 + k < lo + n := by
  have index : (i * 1024 + k) / 1024 = i := by omega
  have offset : (i * 1024 + k) % 1024 = k := by omega
  have here : Vm.pte s'.mem d (i * 1024 + k) = entry s'.mem t k := by
    rw [pte_of_table (index.symm ▸ found), offset]
  have before : Vm.pte s.mem d (i * 1024 + k) = 0 := by
    unfold Vm.pte
    rw [index, missing]
  by_contra outside
  rw [← here, mapped.pte, if_neg outside, before] at present
  cases present

/-- The loop of `mappages` over a vacant range. -/
theorem mappagesLoop_prefix {fuel : Nat} (separate : Separate s d)
    (bound : lo + (n + 1) ≤ 1048576)
    (vacant : ∀ u, lo ≤ u → u < lo + (n + 1) → ¬ PteP (pte s.mem d u))
    (permLt : perm < 2 ^ 32) (paLt : pa < 4294967296) (enough : n < fuel) :
    (∃ s', mappagesLoop d perm ((lo + n) * 4096) fuel (lo * 4096) pa s = .ok (0, s') ∧
        PrefixMapped s s' d lo (n + 1) pa perm) ∨
      ∃ s' m, m < n + 1 ∧
        mappagesLoop d perm ((lo + n) * 4096) fuel (lo * 4096) pa s = .ok (-1, s') ∧
        PrefixMapped s s' d lo m pa perm ∧
        s'.freelist = [] ∧ tableOf s'.mem d ((lo + m) / 1024) = none := by
  induction fuel generalizing lo n pa s with
  | zero => omega
  | succ fuel ih =>
      rcases mappagesLoop_vacant separate (by omega) (vacant lo le_rfl (by omega)) permLt paLt
        ((lo + n) * 4096) fuel with ⟨s1, stored, done, run⟩ | ⟨run, missing, frames⟩
      · have separate1 := (mapEntry_separate separate (by omega) stored).1
        cases n with
        | zero =>
            rw [if_pos (by omega)] at run
            exact .inl ⟨s1, run, .cons separate (by omega) stored done (.zero separate1)⟩
        | succ n =>
            have vacant1 (u : Nat) (low : lo + 1 ≤ u) (high : u < lo + 1 + (n + 1)) :
                ¬ PteP (pte s1.mem d u) := by
              rw [done.pte, if_neg (by omega)]
              exact vacant u (by omega) (by omega)
            have pa1Lt : (pa + 4096) % 4294967296 < 4294967296 := Nat.mod_lt _ (by decide)
            have end' : lo + (n + 1) = lo + 1 + n := by omega
            have next : (lo * 4096 + 4096) % 4294967296 = (lo + 1) * 4096 := by omega
            rw [if_neg (by omega), next, end'] at run
            rw [end', run]
            rcases ih separate1 (by omega) vacant1 pa1Lt (by omega) with
              ⟨s', ended, rest⟩ | ⟨s', m, less, ended, rest, frames, missing⟩
            · exact .inl ⟨s', ended, .cons separate (by omega) stored done rest⟩
            · refine .inr ⟨s', m + 1, by omega, ended,
                .cons separate (by omega) stored done rest, frames, ?_⟩
              rw [show lo + (m + 1) = lo + 1 + m by omega]
              exact missing
      · exact .inr ⟨s, 0, by omega, run, .zero separate, frames, missing⟩

/-- The physical address and the flags of an entry of a range. -/
theorem rangeEntry_parts {u : Nat} (aligned : pa % 4096 = 0) (permLt : perm < 4096) :
    pteAddr (rangeEntry lo pa perm u) * 4096 = (pa + (u - lo) * 4096) % 4294967296 ∧
      rangeEntry lo pa perm u % 4096 = perm ||| 1 := by
  have address : (pa + (u - lo) * 4096) % 4294967296 =
      (pa + (u - lo) * 4096) % 4294967296 / 4096 * 4096 := by omega
  have flags : perm ||| 1 < 2 ^ 12 := Nat.or_lt_two_pow permLt (by decide)
  unfold rangeEntry
  rw [address]
  constructor
  · rw [pteAddr_entry _ permLt]
  · rw [or_entry _ permLt]
    omega

/-- `mappages` ends on every vacant range that does not wrap around.  It returns 0 with
the whole range mapped, or -1 with the pages before one whose table cannot be
allocated; no other translation changes, and a table that it creates has no other
present entry. -/
theorem mappages_exact {va size : Nat} (separate : Separate s d) (positive : 0 < size)
    (noWrap : va + size - 1 < 4294967296) (paLt : pa < 4294967296) (permLt : perm < 2 ^ 32)
    (vacant : ∀ u, va / 4096 ≤ u → u ≤ (va + size - 1) / 4096 → ¬ PteP (pte s.mem d u)) :
    ∃ result s' n, mappages d va size pa perm s = .ok (result, s') ∧
      (result = 0 ∧ va / 4096 + n = (va + size - 1) / 4096 + 1 ∨
        result = -1 ∧ va / 4096 + n < (va + size - 1) / 4096 + 1 ∧
          s'.freelist = [] ∧ tableOf s'.mem d ((va / 4096 + n) / 1024) = none) ∧
      PrefixMapped s s' d (va / 4096) n pa perm ∧
      (∀ i t k, tableOf s.mem d i = none → tableOf s'.mem d i = some t → k < 1024 →
        PteP (entry s'.mem t k) →
          va / 4096 ≤ i * 1024 + k ∧ i * 1024 + k < va / 4096 + n) ∧
      (pa % 4096 = 0 → perm < 4096 → ∀ u, va / 4096 ≤ u → u < va / 4096 + n →
        pteAddr (pte s'.mem d u) * 4096 = (pa + (u - va / 4096) * 4096) % 4294967296 ∧
          pte s'.mem d u % 4096 = perm ||| 1) := by
  obtain ⟨n, last⟩ : ∃ n, (va + size - 1) / 4096 = va / 4096 + n :=
    Nat.exists_eq_add_of_le (Nat.div_le_div_right (by omega))
  have begins : pgrounddown va = va / 4096 * 4096 := rfl
  have ends : pgrounddown ((va + size + 4294967295) % 4294967296) =
      (va / 4096 + n) * 4096 := by
    have wrapped : (va + size + 4294967295) % 4294967296 = va + size - 1 := by omega
    rw [pgrounddown, wrapped, last]
  have facts {s' : Kernel} {m : Nat} (mapped : PrefixMapped s s' d (va / 4096) m pa perm)
      (aligned : pa % 4096 = 0) (permLt : perm < 4096) (u : Nat) (low : va / 4096 ≤ u)
      (high : u < va / 4096 + m) :
      pteAddr (pte s'.mem d u) * 4096 = (pa + (u - va / 4096) * 4096) % 4294967296 ∧
        pte s'.mem d u % 4096 = perm ||| 1 := by
    rw [mapped.pte, if_pos ⟨low, high⟩]
    exact rangeEntry_parts aligned permLt
  unfold mappages
  rw [begins, ends]
  rcases mappagesLoop_prefix (n := n) separate (by omega)
    (fun u low high => vacant u low (by omega)) permLt paLt (by omega : n < 1048576) with
    ⟨s', ran, mapped⟩ | ⟨s', m, less, ran, mapped, frames, missing⟩
  · exact ⟨0, s', n + 1, ran, .inl ⟨rfl, by omega⟩, mapped,
      fun i t k => mapped.created, facts mapped⟩
  · exact ⟨-1, s', m, ran, .inr ⟨rfl, by omega, frames, missing⟩, mapped,
      fun i t k => mapped.created, facts mapped⟩

/-- An empty directory and one free frame. -/
def emptyDirectory : Kernel := ⟨fun _ => zeroPage, [1]⟩

theorem tableOf_emptyDirectory (i : Nat) : tableOf emptyDirectory.mem 0 i = none := by
  have zero : entry emptyDirectory.mem 0 i = 0 := by
    simp [emptyDirectory, entry, getWord, getHalf, getByte, zeroPage]
  unfold tableOf
  rw [zero]
  rfl

theorem pte_emptyDirectory (u : Nat) : pte emptyDirectory.mem 0 u = 0 := by
  unfold pte
  rw [tableOf_emptyDirectory]

theorem emptyDirectory_separate : Separate emptyDirectory 0 := by
  refine ⟨fun i => ?_, fun i j t found => ?_, by decide, fun f isFree => ?_⟩
  · rw [tableOf_emptyDirectory]
    exact fun same => by cases same
  · rw [tableOf_emptyDirectory] at found
    cases found
  · have noTable (i : Nat) : tableOf emptyDirectory.mem 0 i ≠ some f := by
      rw [tableOf_emptyDirectory]
      exact fun same => by cases same
    obtain rfl : f = 1 := by simpa [emptyDirectory] using isFree
    exact ⟨by decide, by decide, noTable⟩

/-- Two pages on both sides of a border of 4 MB: there is a frame for the first table
only. -/
theorem twoTables_exact : ∃ s',
    mappages 0 0x3ff000 8192 0x1000 2 emptyDirectory = .ok (-1, s') ∧
      PrefixMapped emptyDirectory s' 0 0x3ff 1 0x1000 2 ∧
      s'.freelist = [] ∧ tableOf s'.mem 0 1 = none := by
  have vacant (u : Nat) : ¬ PteP (pte emptyDirectory.mem 0 u) := by
    rw [pte_emptyDirectory]
    decide
  obtain ⟨result, s', n, ran, ends, mapped, -⟩ :=
    mappages_exact emptyDirectory_separate (by decide : 0 < 8192)
      (by decide : 0x3ff000 + 8192 - 1 < 4294967296) (by decide : 0x1000 < 4294967296)
      (by decide : 2 < 2 ^ 32) (fun u _ _ => vacant u)
  have computed : (match mappages 0 0x3ff000 8192 0x1000 2 emptyDirectory with
      | .ok (result, s') => (result, pte s'.mem 0 0x3ff)
      | .error _ => (0, 0)) = (-1, 0x1003) := by
    decide +kernel
  rw [ran, Prod.mk.injEq] at computed
  obtain ⟨rfl, first⟩ := computed
  rcases ends with ⟨done, -⟩ | ⟨-, less, frames, missing⟩
  · cases done
  · have some : n ≠ 0 := by
      rintro rfl
      rw [mapped.pte, if_neg (by omega), pte_emptyDirectory] at first
      cases first
    obtain rfl : n = 1 := by omega
    exact ⟨s', ran, mapped, frames, missing⟩

end Xv6.Vm
