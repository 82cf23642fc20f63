import Xv6.LabelledRuns
import Xv6.UserMalloc

/-!
# Runs of the allocator of the user library

A program calls `malloc` and `free` and writes into the blocks it holds.  As long as its
requests are small enough and it gives back each block once, every call returns and the free
list, the live blocks and the areas fit together after it.
-/

namespace Xv6.Umalloc

open CircularLists LabelledRuns

/-- The heap, the pointers the program holds and the areas obtained from the kernel. -/
structure Program where
  heap : Heap
  held : List Nat
  areas : List Block

/-- Any bytes behind the header of a block are written: the fields of the headers that would
overlap with them change. -/
def Heap.overwritten (h : Heap) (bp : Nat) (ptr size : Nat → Nat) : Heap :=
  { h with
    ptr := fun p => if bp < p ∧ p < bp + 8 * h.size bp then ptr p else h.ptr p
    size := fun p => if bp < p ∧ p < bp + 8 * h.size bp then size p else h.size p }

/-- What the program does next. -/
inductive Action
  | malloc (nbytes : Nat) (answers : Nat → Option Nat)
  | free (ap : Nat)
  | write (ap : Nat) (ptr size : Nat → Nat)

/-- The program before its first call. -/
def started (h : Heap) : Program :=
  ⟨{ h with freep := 0 }, [], []⟩

/-- One action; there is no next state when a call does not return. -/
def step (base : Nat) (s : Program) : Action → Option Program
  | .malloc nbytes answers =>
      ((malloc base s.heap nbytes).run answers s.areas).map fun (h, p, areas) =>
        ⟨h, if p = 0 then s.held else p :: s.held, areas⟩
  | .free ap => (free s.heap ap).map fun h => ⟨h, s.held.erase ap, s.areas⟩
  | .write ap ptr size => some { s with heap := s.heap.overwritten (header ap) ptr size }

/-- Requests are below `2 ^ 31 - 16` bytes, the kernel answers as `sbrk` may, and a pointer
that is used is one that the program holds. -/
def Proper (base : Nat) (s : Program) : Action → Prop
  | .malloc nbytes answers =>
      nbytes < 2 ^ 31 - 16 ∧ (malloc base s.heap nbytes).Allowed base answers s.areas
  | .free ap => ap ∈ s.held
  | .write ap _ _ => ap ∈ s.held

/-- The free list, the live blocks and the areas fit together. -/
structure WellFormed (base : Nat) (s : Program) (free live : List Block) : Prop where
  /-- The pointers that the program holds are those to the live blocks. -/
  held : s.held.Perm (live.map fun b => ahead b.start 1)
  sizes : ∀ b ∈ free ++ live, s.heap.size b.start = b.units ∧ 0 < b.units
  /-- From `base` on the list is in address order, up to the last block, which leads back. -/
  circle : LinkCircle s.heap.ptr base (free.map Block.start)
  ascending : (base :: free.map Block.start).Pairwise (· < ·)
  freep : s.heap.freep ∈ base :: free.map Block.start
  apart : (free ++ live).Pairwise Apart
  gaps : ∀ a ∈ free, ∀ b ∈ free, a.stop ≠ b.start
  /-- Every unit of a block is a unit of an area. -/
  inside : ∀ b ∈ free ++ live, ∀ c ∈ b.cells, ∃ a ∈ s.areas, c ∈ a.cells
  areas : (⟨base, 1⟩ :: s.areas).Pairwise fun a b => a.stop ≤ b.start
  total : ((free ++ live).map Block.units).sum = (s.areas.map Block.units).sum

/-- The state after a call: the invariant, and the pointers are those to the live blocks. -/
def Linked (base : Nat) (s : Program) : Prop :=
  ∃ free live, HeapOk base s.heap free live s.areas ∧
    s.held.Perm (live.map fun b => ahead b.start 1)

section Runs

variable {base : Nat} {s : Program} {free live : List Block}

/-- No free block ends where one starts. -/
theorem Layout.gaps {areas : List Block} {a b : Block} (layout : Layout base free live areas)
    (first : a ∈ free) (second : b ∈ free) : a.stop ≠ b.start := by
  have positive := layout.positive a (List.mem_append_left _ first)
  have behind := (List.pairwise_cons.mp layout.ascending).2
  by_cases same : a = b
  · subst same
    unfold Block.stop
    omega
  · have either : free.Pairwise fun a b => a.stop < b.start ∨ b.stop < a.start :=
      behind.imp Or.inl
    have : Std.Symm fun a b : Block => a.stop < b.start ∨ b.stop < a.start := ⟨fun _ _ => Or.symm⟩
    have gap := either.forall first second same
    unfold Block.stop at *
    omega

theorem WellFormed.of_ok (ok : HeapOk base s.heap free live s.areas)
    (held : s.held.Perm (live.map fun b => ahead b.start 1)) : WellFormed base s free live := by
  have layout := ok.layout
  refine ⟨held, fun b member => ⟨?_, layout.positive b member⟩, ok.holds.circle,
    starts_ascending layout, ok.holds.freep, layout.apart, fun a first b second => ?_,
    fun b member c unit => ?_, ?_, ?_⟩
  · exact ok.holds.size b (List.mem_cons_of_mem _ member)
  · exact layout.gaps first second
  · exact mem_cells.mp (layout.perm.mem_iff.mp (mem_cells.mpr ⟨b, member, unit⟩))
  · exact List.pairwise_cons.mpr ⟨layout.areas.behind, layout.areas.ordered⟩
  · rw [← length_cells, ← length_cells]
    exact layout.perm.length_eq

/-- The live blocks in another order. -/
theorem HeapOk.perm_live {h : Heap} {areas live' : List Block}
    (ok : HeapOk base h free live areas) (same : live.Perm live') :
    HeapOk base h free live' areas := by
  refine ⟨ok.nonnull, ok.layout.perm_live same, ok.holds.circle, ok.holds.freep, ?_⟩
  intro b member
  refine ok.holds.size b ?_
  simpa [same.mem_iff] using member

theorem linked_malloc {nbytes : Nat} {answers : Nat → Option Nat}
    (inv : HeapInv base s.heap free live s.areas)
    (held : s.held.Perm (live.map fun b => ahead b.start 1))
    (proper : Proper base s (.malloc nbytes answers)) :
    ∃ s', step base s (.malloc nbytes answers) = some s' ∧ Linked base s' := by
  obtain ⟨small, allowed⟩ := proper
  have ok := inv.initialized_ok
  have narrow : coreUnits (unitsFor nbytes) < 2 ^ 28 := by
    unfold coreUnits unitsFor
    split <;> omega
  obtain ⟨-, ⟨h', p, areas'⟩, ran, outcome⟩ :=
    ok.mallocLoop_ok (unitsFor_pos nbytes) narrow (by unfold kernbase turnLimit; omega) allowed
  have stepped : step base s (.malloc nbytes answers) =
      some ⟨h', if p = 0 then s.held else p :: s.held, areas'⟩ := by
    rw [step, malloc, ran, Option.map_some]
  refine ⟨_, stepped, ?_⟩
  rcases outcome with ⟨rfl, rfl, rfl⟩ | ⟨c, free', rfl, -, ok'⟩
  · exact ⟨free, live, ok, held⟩
  · have start : ahead c.start 1 ≠ 0 := by
      have below := ok'.layout.below (b := c) (by simp)
      unfold Block.stop kernbase at below
      unfold ahead
      omega
    rw [if_neg start]
    exact ⟨free', c :: live, ok', held.cons _⟩

/-- A pointer the program holds is that to a live block. -/
theorem exists_block {ap : Nat} (ok : HeapOk base s.heap free live s.areas)
    (held : s.held.Perm (live.map fun b => ahead b.start 1)) (member : ap ∈ s.held) :
    ∃ b ∈ live, ap = ahead b.start 1 ∧ header ap = b.start := by
  obtain ⟨b, inLive, rfl⟩ := List.mem_map.mp (held.mem_iff.mp member)
  exact ⟨b, inLive, rfl, header_ahead (ok.layout.below (List.mem_append_right free inLive))⟩

theorem linked_free {ap : Nat} (linked : Linked base s) (proper : ap ∈ s.held) :
    ∃ s', step base s (.free ap) = some s' ∧ Linked base s' := by
  obtain ⟨free, live, ok, held⟩ := linked
  obtain ⟨b, inLive, rfl, -⟩ := exists_block ok held proper
  have first := List.perm_cons_erase inLive
  obtain ⟨h', free', freed, ok', -⟩ := (ok.perm_live first).free_ok
  have stepped : step base s (.free (ahead b.start 1)) =
      some ⟨h', s.held.erase (ahead b.start 1), s.areas⟩ := by
    rw [step, freed, Option.map_some]
  refine ⟨_, stepped, free', live.erase b, ok', ?_⟩
  have others := (held.trans (first.map fun b => ahead b.start 1)).erase (ahead b.start 1)
  rwa [List.map_cons, List.erase_cons_head] at others

theorem linked_write {ap : Nat} {ptr size : Nat → Nat} (linked : Linked base s)
    (proper : ap ∈ s.held) :
    ∃ s', step base s (.write ap ptr size) = some s' ∧ Linked base s' := by
  obtain ⟨free, live, ok, held⟩ := linked
  obtain ⟨b, inLive, -, start⟩ := exists_block ok held proper
  have given : b ∈ free ++ live := List.mem_append_right free inLive
  have sizeB : s.heap.size b.start = b.units := ok.holds.size b (List.mem_cons_of_mem _ given)
  -- the headers of the other blocks lie outside
  have outside : ∀ c ∈ baseBlock base :: (free ++ live),
      ¬(b.start < c.start ∧ c.start < b.start + 8 * b.units) := by
    intro c member
    by_cases same : c = b
    · rw [same]
      omega
    · rcases List.mem_cons.mp member with rfl | member
      · have behind := ok.layout.behind given
        rw [baseBlock_start]
        omega
      · have apart := ok.layout.apart.forall member given same
        unfold Apart Block.stop at apart
        omega
  rw [← sizeB] at outside
  rw [step, start]
  refine ⟨_, rfl, free, live, ⟨ok.nonnull, ok.layout, ?_, ok.holds.freep, fun c member => ?_⟩, held⟩
  · refine LinkPath.congr ok.holds.circle fun p member => ?_
    rw [← baseBlock_start base, ← List.map_cons] at member
    obtain ⟨c, inside, rfl⟩ := List.mem_map.mp member
    exact if_neg (outside c (List.mem_append_left live inside))
  · exact (if_neg (outside c member)).trans (ok.holds.size c member)

/-- Every proper action after the first call is taken and keeps the invariant. -/
theorem linked_step {action : Action} (linked : Linked base s) (proper : Proper base s action) :
    ∃ s', step base s action = some s' ∧ Linked base s' := by
  cases action with
  | malloc nbytes answers =>
      obtain ⟨free, live, ok, held⟩ := linked
      exact linked_malloc (.linked ok) held proper
  | free ap => exact linked_free linked proper
  | write ap ptr size => exact linked_write linked proper

/-- **Every run of the allocator keeps the heap in shape.**  In every proper run all calls
return, and after each call the free list starting at `freep` is a circle in address
order, its blocks and the live ones are apart and use up the areas, and no two free blocks
touch. -/
theorem runs_wellFormed {h : Heap} {actions : List Action} (nonnull : 0 < base)
    (proper : RunMeets (step base) (Proper base) (started h) actions) :
    ∃ last, run (step base) (started h) actions = some last ∧
      (actions ≠ [] → ∃ free live, WellFormed base last free live) := by
  cases actions with
  | nil => exact ⟨started h, rfl, absurd rfl⟩
  | cons action actions =>
      obtain ⟨first, rest⟩ := proper
      obtain ⟨s, stepped, linked⟩ : ∃ s, step base (started h) action = some s ∧ Linked base s := by
        cases action with
        | malloc nbytes answers =>
            have fresh : HeapInv base (started h).heap [] [] [] := .fresh nonnull rfl
            exact linked_malloc fresh (List.Perm.refl _) first
        | free ap => exact absurd first List.not_mem_nil
        | write ap ptr size => exact absurd first List.not_mem_nil
      obtain ⟨last, ran, free, live, ok, held⟩ :=
        exists_run_of_runMeets linked_step linked (rest s stepped)
      exact ⟨last, run_cons_eq_some.mpr ⟨s, stepped, ran⟩,
        fun _ => ⟨free, live, WellFormed.of_ok ok held⟩⟩

end Runs

/-- A heap as the program loader leaves it. -/
def clearHeap : Heap :=
  ⟨fun _ => 0, fun _ => 0, 0⟩

/-- A kernel that has one area left. -/
def oneArea : Nat → Option Nat
  | 0 => some 0x4000
  | _ + 1 => none

theorem oneArea_wellFormed :
    ∃ last, run (step 0x1000) (started clearHeap) [.malloc 100 oneArea, .free 0xbf98] = some last ∧
      ∃ free live, WellFormed 0x1000 last free live := by
  have proper : RunMeets (step 0x1000) (Proper 0x1000) (started clearHeap)
      [.malloc 100 oneArea, .free 0xbf98] := by
    refine ⟨⟨by decide, ?_⟩, fun s stepped => ⟨?_, fun _ _ => trivial⟩⟩
    · obtain ⟨resume, asks⟩ : ∃ resume,
          malloc 0x1000 (started clearHeap).heap 100 = .asks 32768 resume := ⟨_, rfl⟩
      rw [asks]
      exact ⟨⟨by decide, by decide⟩, Call.allowed_none _ _ _⟩
    · have held : (step 0x1000 (started clearHeap) (.malloc 100 oneArea)).map Program.held =
          some [0xbf98] := by
        decide +kernel
      rw [stepped, Option.map_some, Option.some.injEq] at held
      rw [Proper, held]
      exact List.mem_singleton_self _
  obtain ⟨last, ran, shape⟩ := runs_wellFormed (by decide) proper
  exact ⟨last, ran, shape (List.cons_ne_nil _ _)⟩

end Xv6.Umalloc
