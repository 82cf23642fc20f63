import Xv6.BreadCoherence
import Xv6.RecencyOrder

/-!
# The buffer that is recycled

`brelse` pushes a buffer without references behind the head of the list, and
`bget` searches from the other end.  So the list is in the order of the last
releases, and `bget` recycles the buffer that has not been used for the longest time.
-/

namespace Xv6.Coherence

open LabelledRuns LinkedRing LinkedCache Recency

/-! ## The releases of a run -/

/-- The cache, and when each buffer has lost its last reference. -/
structure Aged where
  cache : LinkedCache
  released : Slot → Nat
  now : Nat

/-- A call of `bget`, the part of `brelse` under `bcache.lock`, or what a process does
with a buffer that it has. -/
inductive Use where
  | bget (dev blockno : Nat)
  | unref (i : Slot)
  | change (i : Slot) (valid dirty : Bool) (data : Block)

def Aged.step (s : Aged) : Use → Option Aged
  | .bget dev blockno =>
      (s.cache.bget dev blockno).map fun got => ⟨got.2, s.released, s.now + 1⟩
  | .unref i =>
      if (s.cache.buf i).refcnt = 0 then none
      else if (s.cache.buf i).refcnt = 1 then
        some ⟨s.cache.unref i, Function.update s.released i (s.now + 1), s.now + 1⟩
      else some ⟨s.cache.unref i, s.released, s.now + 1⟩
  | .change i valid dirty data =>
      some ⟨s.cache.modify i fun b => { b with valid := valid, dirty := dirty, data := data },
        s.released, s.now + 1⟩

/-- The cache after `binit`. -/
def Aged.start : Aged := ⟨LinkedCache.binit, fun _ => 0, 0⟩

/-- The list is in the order of the releases. -/
structure InOrder (s : Aged) (order : List Slot) : Prop where
  all : order.Perm (List.finRange nbuf)
  ring : Ring s.cache.links order
  sorted : Sorted s.released order
  past : ∀ i, s.released i ≤ s.now

section Order

variable {s s' : Aged} {order : List Slot}

theorem InOrder.nodup (inOrder : InOrder s order) : order.Nodup :=
  inOrder.all.nodup_iff.mpr (List.nodup_finRange nbuf)

theorem start_inOrder : ∃ order, InOrder Aged.start order := by
  obtain ⟨order, all, ring⟩ := linked_binit
  refine ⟨order, all, ring, ?_, fun _ => Nat.le_refl 0⟩
  exact List.Pairwise.imp (fun _ => Nat.le_refl 0)
    (all.nodup_iff.mpr (List.nodup_finRange nbuf))

theorem InOrder.unref (inOrder : InOrder s order) {i : Slot}
    (one : (s.cache.buf i).refcnt = 1) :
    InOrder ⟨s.cache.unref i, Function.update s.released i (s.now + 1), s.now + 1⟩
      (i :: order.erase i) := by
  have isHere := mem_of_perm inOrder.all i
  have notHere : i ∉ order.erase i := inOrder.nodup.not_mem_erase
  have moved : (s.cache.unref i).links = (s.cache.links.unlink i).push i := by
    simp only [LinkedCache.unref, modify_buf, if_true, one, Nat.sub_self]
    rfl
  refine ⟨?_, ?_, ?_, ?_⟩
  · exact (List.perm_cons_erase isHere).symm.trans inOrder.all
  · change Ring (s.cache.unref i).links _
    rw [moved]
    exact (inOrder.ring.unlink inOrder.nodup isHere).push notHere
  · apply inOrder.sorted.moveToFront inOrder.nodup
    intro j _
    exact Nat.le_succ_of_le (inOrder.past j)
  · intro j
    change Function.update s.released i (s.now + 1) j ≤ s.now + 1
    by_cases isSelf : j = i
    · rw [isSelf, Function.update_self]
    · rw [Function.update_of_ne isSelf]
      exact Nat.le_succ_of_le (inOrder.past j)

/-- The links stay as they are. -/
theorem InOrder.keep (inOrder : InOrder s order) {cache : LinkedCache}
    (same : cache.links = s.cache.links) : InOrder ⟨cache, s.released, s.now + 1⟩ order :=
  ⟨inOrder.all, same ▸ inOrder.ring, inOrder.sorted,
    fun j => Nat.le_succ_of_le (inOrder.past j)⟩

theorem bget_links {c c' : LinkedCache} {dev blockno : Nat} {i : Slot}
    (got : c.bget dev blockno = some (i, c')) : c'.links = c.links := by
  unfold LinkedCache.bget at got
  split at got
  · cases got
    rfl
  · obtain ⟨j, -, same⟩ := Option.map_eq_some_iff.mp got
    cases same
    rfl

theorem step_inOrder {use : Use} (inOrder : ∃ order, InOrder s order)
    (stepped : s.step use = some s') : ∃ order, InOrder s' order := by
  obtain ⟨order, inOrder⟩ := inOrder
  cases use with
  | bget dev blockno =>
      obtain ⟨⟨i, c'⟩, got, rfl⟩ := Option.map_eq_some_iff.mp stepped
      exact ⟨order, inOrder.keep (bget_links got)⟩
  | unref i =>
      simp only [Aged.step] at stepped
      split at stepped
      · cases stepped
      · split at stepped
        · next one =>
          cases stepped
          exact ⟨_, inOrder.unref one⟩
        · next notNone notOne =>
          cases stepped
          refine ⟨order, inOrder.keep ?_⟩
          have left : (s.cache.buf i).refcnt - 1 ≠ 0 := by omega
          simp only [LinkedCache.unref, modify_buf, if_true, if_neg left]
          rfl
  | change i valid dirty data =>
      cases stepped
      exact ⟨order, inOrder.keep rfl⟩

end Order

/-- What `bget` returns and how it leaves the buffers. -/
theorem bget_eq_some {c c' : LinkedCache} {dev blockno : Nat} {i : Slot} (linked : c.Linked)
    (got : c.bget dev blockno = some (i, c')) :
    (∀ j, j ≠ i → c'.buf j = c.buf j) ∧
      ((c.buf i).dev = dev ∧ (c.buf i).blockno = blockno ∧
          c'.buf i = { c.buf i with refcnt := (c.buf i).refcnt + 1 } ∨
        (∀ j, (c.buf j).dev = dev → (c.buf j).blockno ≠ blockno) ∧ c.victim = some i ∧
          c'.buf i = { c.buf i with
            dev := dev, blockno := blockno, valid := false, dirty := false, refcnt := 1 }) := by
  have others {f : Buf → Buf} (j : Slot) (other : j ≠ i) : (c.modify i f).buf j = c.buf j := by
    rw [modify_buf, if_neg other]
  have changed {f : Buf → Buf} : (c.modify i f).buf i = f (c.buf i) := by
    rw [modify_buf, if_pos rfl]
  cases found : c.lookup dev blockno with
  | some j =>
      simp only [LinkedCache.bget, found] at got
      cases got
      obtain ⟨isDev, isBlock⟩ := lookup_eq_some linked found
      exact ⟨others, .inl ⟨isDev, isBlock, changed⟩⟩
  | none =>
      simp only [LinkedCache.bget, found] at got
      obtain ⟨j, isVictim, same⟩ := Option.map_eq_some_iff.mp got
      cases same
      exact ⟨others, .inr ⟨lookup_eq_none linked found, isVictim, changed⟩⟩

/-- The search for a victim, in the order of the list. -/
theorem InOrder.victim (inOrder : InOrder s order) :
    s.cache.victim = order.reverse.find? fun i =>
      (s.cache.buf i).refcnt == 0 && !(s.cache.buf i).dirty :=
  inOrder.ring.search_prev _ (length_of_perm inOrder.all)

theorem InOrder.victim_eq_none (inOrder : InOrder s order) :
    s.cache.victim = none ↔
      ∀ j, (s.cache.buf j).refcnt ≠ 0 ∨ (s.cache.buf j).dirty = true := by
  rw [inOrder.victim, List.find?_eq_none]
  constructor
  · intro missing j
    have used := missing j (List.mem_reverse.mpr (mem_of_perm inOrder.all j))
    by_contra neither
    rw [not_or, not_not, Bool.not_eq_true] at neither
    simp [neither.1, neither.2] at used
  · intro busy j _
    rcases busy j with used | dirty
    · simp [used]
    · simp [dirty]

/-- In every run of calls, `bget` finds a block that is cached and takes one more
reference; otherwise it recycles, of the clean buffers without references, one that was
released longest ago, for the block.  It panics exactly when there is neither. -/
theorem bget_recycles_oldest {uses : List Use} {s : Aged}
    (ran : run Aged.step .start uses = some s) (dev blockno : Nat) :
    (∀ i c', s.cache.bget dev blockno = some (i, c') →
      c'.links = s.cache.links ∧ (∀ j, j ≠ i → c'.buf j = s.cache.buf j) ∧
      ((s.cache.buf i).dev = dev ∧ (s.cache.buf i).blockno = blockno ∧
          c'.buf i = { s.cache.buf i with refcnt := (s.cache.buf i).refcnt + 1 } ∨
        (∀ j, (s.cache.buf j).dev = dev → (s.cache.buf j).blockno ≠ blockno) ∧
          (s.cache.buf i).refcnt = 0 ∧ (s.cache.buf i).dirty = false ∧
          (∀ j, (s.cache.buf j).refcnt = 0 → (s.cache.buf j).dirty = false →
            s.released i ≤ s.released j) ∧
          c'.buf i = { s.cache.buf i with
            dev := dev, blockno := blockno, valid := false, dirty := false, refcnt := 1 })) ∧
    (s.cache.bget dev blockno = none ↔
      (∀ j, (s.cache.buf j).dev = dev → (s.cache.buf j).blockno ≠ blockno) ∧
        ∀ j, (s.cache.buf j).refcnt ≠ 0 ∨ (s.cache.buf j).dirty = true) := by
  obtain ⟨order, inOrder⟩ := invariant_of_run step_inOrder start_inOrder ran
  have linked : s.cache.Linked := ⟨order, inOrder.all, inOrder.ring⟩
  constructor
  · intro i c' got
    obtain ⟨others, cached | ⟨absent, isVictim, recycled⟩⟩ := bget_eq_some linked got
    · exact ⟨bget_links got, others, .inl cached⟩
    · obtain ⟨free, clean⟩ := victim_eq_some linked isVictim
      refine ⟨bget_links got, others, .inr ⟨absent, free, clean, ?_, recycled⟩⟩
      intro k free clean
      rw [inOrder.victim] at isVictim
      apply inOrder.sorted.find?_reverse isVictim (mem_of_perm inOrder.all k)
      simp [free, clean]
  · rw [← inOrder.victim_eq_none]
    cases found : s.cache.lookup dev blockno with
    | some i =>
        obtain ⟨isDev, isBlock⟩ := lookup_eq_some linked found
        simp only [LinkedCache.bget, found]
        exact iff_of_false (Option.some_ne_none _) fun absent => absent.1 i isDev isBlock
    | none =>
        simp only [LinkedCache.bget, found, Option.map_eq_none_iff]
        exact (and_iff_right (lookup_eq_none linked found)).symm

/-- Two blocks are read and released, and then a third one is read: of the buffers
without references, the first two were released last. -/
theorem second_block_recycles : ∃ s, run Aged.step .start
      [.bget 1 5, .bget 1 6, .unref 1, .unref 0] = some s ∧
    ∃ i c', s.cache.bget 1 7 = some (i, c') ∧ (c'.buf i).blockno = 7 ∧
      s.released i ≤ s.released 0 ∧ s.released i ≤ s.released 1 := by
  have ends : ∃ s, run Aged.step .start [.bget 1 5, .bget 1 6, .unref 1, .unref 0] = some s ∧
      (∀ j ∈ List.finRange nbuf, (s.cache.buf j).blockno ≠ 7) ∧
      ∀ j ∈ ([0, 1] : List Slot), (s.cache.buf j).refcnt = 0 ∧ (s.cache.buf j).dirty = false :=
    ⟨_, rfl, by decide, by decide⟩
  obtain ⟨s, ran, absent, free⟩ := ends
  obtain ⟨returns, panics⟩ := bget_recycles_oldest ran 1 7
  have zero := free 0 (by simp)
  have one := free 1 (by simp)
  cases got : s.cache.bget 1 7 with
  | none => exact absurd ((panics.mp got).2 0) (by simp [zero])
  | some entry =>
      obtain ⟨i, c'⟩ := entry
      obtain ⟨-, -, cached | ⟨-, -, -, oldest, recycled⟩⟩ := returns i c' got
      · exact absurd cached.2.1 (absent i (List.mem_finRange i))
      · refine ⟨s, ran, i, c', got, ?_, oldest 0 zero.1 zero.2, oldest 1 one.1 one.2⟩
        rw [recycled]

end Xv6.Coherence
