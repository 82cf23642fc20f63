import Xv6.UserHeap

/-!
# Requests to the allocator of the user library

A call of `malloc` goes once around the free list.  It takes the units from the first block
that is large enough, or asks the kernel for more memory, gives that back as a free block
and goes around again.  The number of units and the argument of `sbrk` are computed in
32 bits; up to `2 ^ 31 - 16` bytes they are right, and from there on the call either asks for
the wrong amount or returns a block that is too small.
-/

namespace Xv6.Umalloc

open CircularLists

/-! ## Calls and the answers of the kernel -/

/-- The areas after `sbrk(n)`. -/
def extended (areas : List Block) (n : Int) : Option Nat → List Block
  | none => areas
  | some a => areas ++ [⟨a, n.toNat / 8⟩]

/-- What `sbrk(n)` may answer: -1, or an address behind all areas from which `n` bytes are
below the end of the user part of the address space. -/
def Granted (base : Nat) (areas : List Block) (n : Int) : Option Nat → Prop
  | none => True
  | some a => (∀ c ∈ ⟨base, 1⟩ :: areas, c.stop ≤ a) ∧ (a : Int) + n ≤ kernbase

/-- The end of a call whose calls of `sbrk` get these answers, with the areas then. -/
def Call.run : (Nat → Option Nat) → List Block → Call → Option (Heap × Nat × List Block)
  | _, areas, .returns h p => some (h, p, areas)
  | answers, areas, .asks n resume =>
      run (fun i => answers (i + 1)) (extended areas n (answers 0)) (resume (answers 0))
  | _, _, .spins => none

/-- The arguments of `sbrk` in a call. -/
def Call.requests : (Nat → Option Nat) → Call → List Int
  | _, .returns _ _ => []
  | answers, .asks n resume => n :: requests (fun i => answers (i + 1)) (resume (answers 0))
  | _, .spins => []

/-- The kernel gives only answers that `sbrk` may give. -/
def Call.Allowed (base : Nat) : (Nat → Option Nat) → List Block → Call → Prop
  | _, _, .returns _ _ => True
  | answers, areas, .asks n resume =>
      Granted base areas n (answers 0) ∧
        Allowed base (fun i => answers (i + 1)) (extended areas n (answers 0)) (resume (answers 0))
  | _, _, .spins => True

/-- The heap before the first call, or one that meets the invariant. -/
inductive HeapInv (base : Nat) (h : Heap) : List Block → List Block → List Block → Prop
  | fresh (nonnull : 0 < base) (unset : h.freep = 0) : HeapInv base h [] [] []
  | linked {free live areas : List Block} (ok : HeapOk base h free live areas) :
      HeapInv base h free live areas

section HeapOk

variable {base : Nat} {h : Heap} {free live areas : List Block} {front post : List Block}
  {b t : Block} {n : Nat}

theorem HeapOk.freep_pos (ok : HeapOk base h free live areas) : 0 < h.freep := by
  have nonnull := ok.nonnull
  rcases List.mem_cons.mp ok.holds.freep with same | member
  · rwa [same]
  · exact nonnull.trans ((List.pairwise_cons.mp (starts_ascending ok.layout)).1 _ member)

theorem HeapInv.initialized_ok (inv : HeapInv base h free live areas) :
    HeapOk base (initialized base h) free live areas := by
  cases inv with
  | fresh nonnull unset =>
      rw [initialized, if_pos unset]
      refine ⟨nonnull, ⟨by simp, by simp, List.Perm.refl _, by simp, by simp, by simp⟩, ?_, ?_, ?_⟩
      · simp [LinkCircle]
      · simp
      · simp
  | linked ok =>
      rw [initialized, if_neg ok.freep_pos.ne']
      exact ok

/-! ## Taking units -/

/-- A block and the one behind it in the free list start elsewhere than the others. -/
theorem starts_elsewhere (layout : Layout base free live areas)
    (whole : baseBlock base :: free = front ++ t :: b :: post) :
    t.start ≠ b.start ∧
      ∀ c ∈ front ++ (post ++ live), c.start ≠ t.start ∧ c.start ≠ b.start := by
  have nodup := layout.starts_nodup
  rw [← List.cons_append, whole] at nodup
  have perm : (front ++ t :: b :: post ++ live).Perm (t :: b :: (front ++ (post ++ live))) := by
    rw [List.perm_iff_count]
    intro c
    simp only [List.count_append, List.count_cons]
    omega
  rw [(perm.map Block.start).nodup_iff, List.map_cons, List.map_cons, List.nodup_cons,
    List.nodup_cons] at nodup
  obtain ⟨notT, notB, -⟩ := nodup
  refine ⟨fun same => notT (same ▸ List.mem_cons_self), fun c member => ⟨?_, ?_⟩⟩
  · exact fun same => notT (same ▸ List.mem_cons_of_mem _ (List.mem_map_of_mem member))
  · exact fun same => notB (same ▸ List.mem_map_of_mem member)

/-- Taking units off a free block keeps the invariant; the units are a live block then. -/
theorem HeapOk.takeUnits_ok (ok : HeapOk base h free live areas)
    (whole : baseBlock base :: free = front ++ t :: b :: post) (positive : 0 < n)
    (fits : n ≤ b.units) :
    (takeUnits h n t.start b.start).2 = (taken b n).start ∧
      ∃ free', HeapOk base { (takeUnits h n t.start b.start).1 with freep := t.start } free'
        (taken b n :: live) areas := by
  obtain ⟨free', list, layout⟩ := ok.layout.take whole positive fits
  have node : b ∈ baseBlock base :: free := by simp [whole]
  have sizeB : h.size b.start = b.units := ok.holds.size b (List.mem_append_left live node)
  have next : h.ptr b.start = (post.map Block.start).headD base :=
    ok.ptr_eq (whole.trans (List.append_cons front t (b :: post)))
  have size : ∀ c ∈ t :: (front ++ (post ++ live)), h.size c.start = c.units := by
    intro c member
    refine ok.holds.size c ?_
    rw [← List.cons_append, whole]
    simp only [List.mem_append, List.mem_cons] at member ⊢
    tauto
  have below : b.stop ≤ kernbase := by
    refine ok.layout.below (List.mem_append_left live ((List.mem_cons.mp node).resolve_left ?_))
    rintro rfl
    rw [baseBlock_units] at fits
    omega
  by_cases exact_ : b.units = n
  · have same : taken b n = b := by
      rw [taken, exact_, Nat.sub_self, ← exact_]
      rfl
    rw [takeUnits, sizeB, if_pos exact_, same]
    rw [same] at layout
    rw [remainder, if_pos exact_] at list
    obtain ⟨-, elsewhere⟩ := starts_elsewhere ok.layout whole
    have list' : baseBlock base :: free' = front ++ ([t] ++ post) := list
    have starts : [t].map Block.start = t.start :: [] := rfl
    refine ⟨rfl, free', ok.nonnull, layout, ?_⟩
    refine ok.holds.splice (whole.trans (by simp : _ = front ++ t :: ([b] ++ post))) list' starts
      (fun c member => ?_) ?_ rfl ?_ fun c member => ?_
    · have notT := (elsewhere c (by simp only [List.mem_append] at member ⊢; tauto)).1
      simp [Function.update_of_ne notT]
    · simp [next]
    · simpa using size t List.mem_cons_self
    · rw [List.mem_append, List.mem_append, List.mem_cons] at member
      rcases member with inFront | inPost | rfl | inLive
      · exact size c (by simp [inFront])
      · exact size c (by simp [inPost])
      · exact sizeB
      · exact size c (by simp [inLive])
  · rw [remainder, if_neg exact_] at list
    have place : ahead b.start (b.units - n) = (taken b n).start := by
      unfold Block.stop kernbase at below
      exact Nat.mod_eq_of_lt (by omega)
    rw [takeUnits, sizeB, if_neg exact_]
    simp only [Heap.setSize_size, Function.update_self, place, true_and]
    refine ⟨free', ok.nonnull, layout, ?_⟩
    obtain ⟨differ, elsewhere⟩ := starts_elsewhere ok.layout whole
    have apart : ∀ c ∈ t :: ⟨b.start, b.units - n⟩ :: (front ++ (post ++ live)),
        c.start ≠ (taken b n).start := by
      have nodup := layout.starts_nodup
      rw [← List.cons_append, list] at nodup
      have perm : (front ++ t :: ([⟨b.start, b.units - n⟩] ++ post) ++ taken b n :: live).Perm
          (taken b n :: t :: ⟨b.start, b.units - n⟩ :: (front ++ (post ++ live))) := by
        rw [List.perm_iff_count]
        intro c
        simp only [List.count_append, List.count_cons, List.count_nil]
        omega
      rw [(perm.map Block.start).nodup_iff, List.map_cons, List.nodup_cons] at nodup
      exact fun c member same => nodup.1 (same ▸ List.mem_map_of_mem member)
    have list' : baseBlock base :: free' = front ++ ([t, ⟨b.start, b.units - n⟩] ++ post) := list
    have starts : [t, ⟨b.start, b.units - n⟩].map Block.start = [t.start, b.start] := rfl
    refine ok.holds.splice (whole.trans (by simp : _ = front ++ t :: ([b] ++ post))) list' starts
      (fun c member => rfl) ?_ rfl (fun c member => ?_) fun c member => ?_
    · simp [next, ok.ptr_eq whole]
    · have notTaken := apart c (by simp only [List.mem_cons] at member ⊢; tauto)
      simp only [List.mem_cons, List.not_mem_nil, or_false] at member
      rcases member with rfl | rfl
      · simp [Function.update_of_ne notTaken, Function.update_of_ne differ, size c]
      · simp [Function.update_of_ne notTaken]
    · have old : c ∈ front ++ (post ++ live) → c.start ≠ (taken b n).start ∧ c.start ≠ b.start ∧
          h.size c.start = c.units := fun inside =>
        ⟨apart c (by simp [inside]), (elsewhere c inside).2, size c (by simp [inside])⟩
      simp only [List.mem_append, List.mem_cons] at member
      rcases (by tauto : c = taken b n ∨ c ∈ front ∨ c ∈ post ∨ c ∈ live) with rfl | inside
      · simp [taken]
      · obtain ⟨notTaken, notB, same⟩ := old (by simpa using inside)
        simp [Function.update_of_ne notTaken, Function.update_of_ne notB, same]

/-! ## The search -/

/-- A block that is large enough is behind its node in the list of the free blocks. -/
theorem HeapOk.exists_large {s : Nat} (ok : HeapOk base h free live areas)
    (node : s ∈ base :: free.map Block.start) (positive : 0 < n) (large : n ≤ h.size (h.ptr s)) :
    ∃ front t b post, baseBlock base :: free = front ++ t :: b :: post ∧ t.start = s ∧
      b.start = h.ptr s ∧ n ≤ b.units := by
  rw [← baseBlock_start base, ← List.map_cons] at node
  obtain ⟨t, member, rfl⟩ := List.mem_map.mp node
  obtain ⟨front, rest, whole⟩ := List.append_of_mem member
  have next := ok.ptr_eq whole
  cases rest with
  | nil =>
      have none_ : h.size base = 0 := ok.holds.size (baseBlock base) List.mem_cons_self
      rw [next, List.map_nil, List.headD_nil, none_] at large
      omega
  | cons b post =>
      have inside : b ∈ baseBlock base :: free := by simp [whole]
      have size : h.size b.start = b.units := ok.holds.size b (List.mem_append_left live inside)
      rw [List.map_cons, List.headD_cons] at next
      exact ⟨front, t, b, post, whole, rfl, next.symm, by rwa [← size, ← next]⟩

theorem mallocLoop_found {p : Nat} (turns prevp : Nat) (large : n ≤ h.size p) :
    mallocLoop (turns + 1) n h prevp p =
      .returns { (takeUnits h n prevp p).1 with freep := prevp }
        (ahead (takeUnits h n prevp p).2 1) := by
  rw [mallocLoop, if_pos large]

/-- The search takes units off a block that is large enough. -/
def TakesUnits (base : Nat) (h : Heap) (free : List Block) (n : Nat) (call : Call) : Prop :=
  ∃ front t b post, baseBlock base :: free = front ++ t :: b :: post ∧ n ≤ b.units ∧
    call = .returns { (takeUnits h n t.start b.start).1 with freep := t.start }
      (ahead (takeUnits h n t.start b.start).2 1)

/-- The search asks for more memory, and then goes around again. -/
def AsksForMore (h : Heap) (n turns : Nat) (call : Call) : Prop :=
  call = morecore h n fun h p => if p = 0 then .returns h 0 else mallocLoop turns n h p (h.ptr p)

/-- The search along the list up to `freep`: it finds a block, or no block was large
enough. -/
theorem HeapOk.mallocLoop_path {s turns : Nat} {rest : List Nat}
    (ok : HeapOk base h free live areas) (positive : 0 < n) (path : LinkPath h.ptr s rest h.freep)
    (nodes : ∀ p ∈ s :: rest, p ∈ base :: free.map Block.start) (others : h.freep ∉ rest)
    (enough : rest.length < turns) :
    TakesUnits base h free n (mallocLoop turns n h s (h.ptr s)) ∨
      (∀ p ∈ rest ++ [h.freep], h.size p < n) ∧
        ∃ spare, turns ≤ spare + rest.length + 1 ∧
          AsksForMore h n spare (mallocLoop turns n h s (h.ptr s)) := by
  induction rest generalizing s turns with
  | nil =>
      obtain ⟨turns, rfl⟩ : ∃ fewer, turns = fewer + 1 := Nat.exists_eq_add_of_le' enough
      by_cases large : n ≤ h.size (h.ptr s)
      · left
        obtain ⟨front, t, b, post, whole, rfl, start, fits⟩ :=
          ok.exists_large (nodes _ List.mem_cons_self) positive large
        rw [mallocLoop_found turns _ large]
        exact ⟨front, t, b, post, whole, fits, by rw [start]⟩
      · right
        have back : h.ptr s = h.freep := path
        rw [mallocLoop, if_neg large, if_pos back]
        rw [back] at large
        exact ⟨by simpa using large, turns, by simp, rfl⟩
  | cons c rest ih =>
      obtain ⟨turns, rfl⟩ : ∃ fewer, turns = fewer + 1 := Nat.exists_eq_add_of_le' (by omega)
      by_cases large : n ≤ h.size (h.ptr s)
      · left
        obtain ⟨front, t, b, post, whole, rfl, start, fits⟩ :=
          ok.exists_large (nodes _ List.mem_cons_self) positive large
        rw [mallocLoop_found turns _ large]
        exact ⟨front, t, b, post, whole, fits, by rw [start]⟩
      · obtain ⟨step, path⟩ := path
        rw [List.mem_cons, not_or] at others
        rw [mallocLoop, if_neg large, step, if_neg (Ne.symm others.1)]
        rw [step] at large
        rw [List.length_cons] at enough
        have behind : ∀ p ∈ c :: rest, p ∈ base :: free.map Block.start :=
          fun p member => nodes p (List.mem_cons_of_mem s member)
        have fits : rest.length < turns := by omega
        rcases ih path behind others.2 fits with found | ⟨small, spare, more, asks⟩
        · exact Or.inl found
        · have more' : turns + 1 ≤ spare + (c :: rest).length + 1 := by
            rw [List.length_cons]
            omega
          refine Or.inr ⟨fun p member => ?_, spare, more', asks⟩
          rcases List.mem_cons.mp member with rfl | member
          · omega
          · exact small p member

/-- The search around the list: it finds a block, or no block is large enough. -/
theorem HeapOk.mallocLoop_cases {turns : Nat} (ok : HeapOk base h free live areas)
    (positive : 0 < n) (enough : kernbase < turns) :
    TakesUnits base h free n (mallocLoop turns n h h.freep (h.ptr h.freep)) ∨
      (∀ b ∈ free, b.units < n) ∧ ∃ spare, turns ≤ spare + kernbase + 1 ∧
        AsksForMore h n spare (mallocLoop turns n h h.freep (h.ptr h.freep)) := by
  have short := ok.layout.length_free
  obtain ⟨around, path, perm⟩ := ok.holds.circle.around ok.holds.freep
  have lengths := perm.length_eq
  rw [List.length_cons, List.length_cons, List.length_map] at lengths
  have nodup : (h.freep :: around).Nodup :=
    perm.nodup_iff.mpr ((starts_ascending ok.layout).imp fun less => less.ne)
  rcases ok.mallocLoop_path positive path (fun p member => perm.mem_iff.mp member)
    (List.nodup_cons.mp nodup).1 (by omega : around.length < turns) with
    found | ⟨small, spare, more, asks⟩
  · exact Or.inl found
  · refine Or.inr ⟨fun b member => ?_, spare, by omega, asks⟩
    have size : h.size b.start = b.units := ok.holds.size b (by simp [member])
    have visited : b.start ∈ h.freep :: around :=
      perm.mem_iff.mpr (List.mem_cons_of_mem base (List.mem_map_of_mem member))
    rw [← size]
    refine small b.start ?_
    rw [List.mem_append, List.mem_singleton]
    exact (List.mem_cons.mp visited).symm

/-- A search that takes units returns a new live block. -/
theorem HeapOk.takesUnits_ok {call : Call} (ok : HeapOk base h free live areas) (positive : 0 < n)
    (found : TakesUnits base h free n call) :
    ∃ h' c free', call = .returns h' (ahead c.start 1) ∧ c.units = n ∧
      HeapOk base h' free' (c :: live) areas := by
  obtain ⟨front, t, b, post, whole, fits, rfl⟩ := found
  obtain ⟨start, free', ok'⟩ := ok.takeUnits_ok whole positive fits
  exact ⟨_, taken b n, free', by rw [start], rfl, ok'⟩

/-! ## More memory -/

/-- The units that `morecore` asks for. -/
def coreUnits (nu : Nat) : Nat :=
  if nu < 4096 then 4096 else nu

theorem coreUnits_pos (nu : Nat) : 0 < coreUnits nu := by
  unfold coreUnits
  split <;> omega

theorem le_coreUnits (nu : Nat) : nu ≤ coreUnits nu := by
  unfold coreUnits
  split <;> omega

theorem morecore_eq (h : Heap) (nu : Nat) (resume : Heap → Nat → Call) :
    morecore h nu resume =
      .asks (toInt (coreUnits nu * 8 % 2 ^ 32)) (coreAnswered h (coreUnits nu) resume) :=
  rfl

theorem coreAnswered_some {nu a : Nat} {h' : Heap} {resume : Heap → Nat → Call}
    (freed : Umalloc.free (h.setSize a nu) (ahead a 1) = some h') :
    coreAnswered h nu resume (some a) = resume h' h'.freep := by
  rw [coreAnswered, freed, coreFreed]

/-- A new area whose header has been written. -/
theorem HeapOk.grown {a nu : Nat} (ok : HeapOk base h free live areas) (positive : 0 < nu)
    (behind : ∀ c ∈ ⟨base, 1⟩ :: areas, c.stop ≤ a) (below : a + 8 * nu ≤ kernbase) :
    HeapOk base (h.setSize a nu) free (⟨a, nu⟩ :: live) (areas ++ [⟨a, nu⟩]) := by
  have layout : Layout base free (⟨a, nu⟩ :: live) (areas ++ [⟨a, nu⟩]) :=
    ok.layout.extend positive behind below
  refine ⟨ok.nonnull, layout, ok.holds.circle, ok.holds.freep, fun c member => ?_⟩
  have nodup := layout.starts_nodup
  have perm : (baseBlock base :: (free ++ ⟨a, nu⟩ :: live)).Perm
      (⟨a, nu⟩ :: baseBlock base :: (free ++ live)) := by
    rw [List.perm_iff_count]
    intro c
    simp only [List.count_append, List.count_cons]
    omega
  rw [(perm.map Block.start).nodup_iff, List.map_cons, List.nodup_cons] at nodup
  rcases List.mem_cons.mp (perm.mem_iff.mp member) with rfl | old
  · simp
  · have own := List.mem_map_of_mem (f := Block.start) old
    have elsewhere : c.start ≠ a := fun same => nodup.1 (same ▸ own)
    rw [Heap.setSize_size, Function.update_of_ne elsewhere]
    exact ok.holds.size c old

/-- What a call of `malloc` for `n` units leaves: it failed and has changed nothing, or it
returned a new live block. -/
def Outcome (base : Nat) (h : Heap) (live areas : List Block) (n : Nat) :
    Heap × Nat × List Block → Prop
  | (h', p, areas') => (h' = h ∧ p = 0 ∧ areas' = areas) ∨
      ∃ c free', p = ahead c.start 1 ∧ c.units = n ∧ HeapOk base h' free' (c :: live) areas'

/-- As long as the request to the kernel does not wrap around, the search ends, asks for the
units it needs and returns a new block, unless the kernel has no memory left. -/
theorem HeapOk.mallocLoop_ok {answers : Nat → Option Nat} {turns : Nat}
    (ok : HeapOk base h free live areas) (positive : 0 < n) (small : coreUnits n < 2 ^ 28)
    (enough : 2 * kernbase + 1 < turns)
    (allowed : (mallocLoop turns n h h.freep (h.ptr h.freep)).Allowed base answers areas) :
    (∀ r ∈ (mallocLoop turns n h h.freep (h.ptr h.freep)).requests answers,
        r = 8 * coreUnits n) ∧
      ∃ end_, (mallocLoop turns n h h.freep (h.ptr h.freep)).run answers areas = some end_ ∧
        Outcome base h live areas n end_ := by
  rcases ok.mallocLoop_cases positive (by omega : kernbase < turns) with
    found | ⟨-, spare, more, asks⟩
  · obtain ⟨h', c, free', returns, units, ok'⟩ := ok.takesUnits_ok positive found
    rw [returns]
    exact ⟨by simp [Call.requests], _, rfl, Or.inr ⟨c, free', rfl, units, ok'⟩⟩
  · rw [AsksForMore] at asks
    rw [asks, morecore_eq] at allowed ⊢
    have wide : coreUnits n * 8 < 2 ^ 31 := by omega
    have request : toInt (coreUnits n * 8 % 2 ^ 32) = 8 * coreUnits n := by
      have narrow : coreUnits n * 8 < 2 ^ 32 := by omega
      rw [toInt, Nat.mod_eq_of_lt narrow, if_pos wide]
      omega
    rw [request] at allowed ⊢
    rw [Call.Allowed] at allowed
    rw [Call.requests, Call.run]
    cases answer : answers 0 with
    | none =>
        simp only [coreAnswered, if_true, Call.requests, Call.run, extended]
        exact ⟨by simp, _, rfl, Or.inl ⟨rfl, rfl, rfl⟩⟩
    | some a =>
        rw [answer] at allowed
        obtain ⟨⟨behind, below⟩, -⟩ := allowed
        have grown := ok.grown (coreUnits_pos n) behind (by omega)
        obtain ⟨h₂, free₂, freed, ok₂, c, inFree, large⟩ := grown.free_ok
        have fits := le_coreUnits n
        have area : extended areas (8 * coreUnits n : Int) (some a) =
            areas ++ [⟨a, coreUnits n⟩] := by
          have units : (8 * (coreUnits n : Int)).toNat / 8 = coreUnits n := by omega
          rw [extended, units]
        rw [coreAnswered_some freed, if_neg ok₂.freep_pos.ne', area]
        rcases ok₂.mallocLoop_cases positive (by omega : kernbase < spare) with
          found | ⟨none_, -⟩
        · obtain ⟨h', d, free', returns, units, ok'⟩ := ok₂.takesUnits_ok positive found
          rw [returns]
          exact ⟨by simp [Call.requests], _, rfl, Or.inr ⟨d, free', rfl, units, ok'⟩⟩
        · have short := none_ c inFree
          simp only at large
          omega

/-! ## Sound calls -/

/-- All of `n` bytes from an address on belong to areas. -/
def Covers (areas : List Block) (p n : Nat) : Prop :=
  ∀ i < n, ∃ a ∈ areas, a.start ≤ p + i ∧ p + i < a.stop

/-- What `malloc` has to ask the kernel for, in integers: a header and the bytes, rounded up
to units, and not less than 4096 units. -/
def requestFor (nbytes : Nat) : Int :=
  8 * max ((nbytes + 7) / 8 + 1) 4096

/-- Every request to the kernel is the one it has to be, and a result that is not null points
to the bytes that were asked for. -/
structure Sound (nbytes : Nat) (answers : Nat → Option Nat) (areas : List Block) (call : Call) :
    Prop where
  requests : ∀ r ∈ call.requests answers, r = requestFor nbytes
  covers : ∀ h' p areas', call.run answers areas = some (h', p, areas') → p ≠ 0 →
    Covers areas' p nbytes

theorem unitsFor_pos (nbytes : Nat) : 0 < unitsFor nbytes :=
  Nat.succ_pos _

/-- The bytes behind the header of a live block belong to areas. -/
theorem HeapOk.covers {nbytes : Nat} (ok : HeapOk base h free (b :: live) areas)
    (fits : nbytes + 8 ≤ 8 * b.units) : Covers areas (ahead b.start 1) nbytes := by
  have given : b ∈ free ++ b :: live := by simp
  have start : ahead b.start 1 = b.start + 8 := by
    have below := ok.layout.below given
    unfold Block.stop kernbase at below
    exact Nat.mod_eq_of_lt (by omega)
  intro i inside
  have unit : b.start + 8 * (1 + i / 8) ∈ b.cells := Block.mem_cells.mpr ⟨_, by omega, rfl⟩
  obtain ⟨a, member, low, high⟩ := ok.layout.inside given unit
  exact ⟨a, member, by omega, by omega⟩

theorem HeapOk.sound {nbytes : Nat} {answers : Nat → Option Nat}
    (ok : HeapOk base h free live areas) (small : nbytes ≤ 2 ^ 31 - 16)
    (allowed : (mallocLoop turnLimit (unitsFor nbytes) h h.freep (h.ptr h.freep)).Allowed base
      answers areas) :
    Sound nbytes answers areas
      (mallocLoop turnLimit (unitsFor nbytes) h h.freep (h.ptr h.freep)) := by
  have units : unitsFor nbytes = (nbytes + 7) / 8 + 1 := by
    unfold unitsFor
    omega
  have narrow : coreUnits (unitsFor nbytes) < 2 ^ 28 := by
    unfold coreUnits
    split <;> omega
  have request : (8 * coreUnits (unitsFor nbytes) : Int) = requestFor nbytes := by
    unfold requestFor coreUnits
    split <;> omega
  obtain ⟨requests, ⟨h', p, areas'⟩, ran, outcome⟩ :=
    ok.mallocLoop_ok (unitsFor_pos nbytes) narrow (by unfold kernbase turnLimit; omega) allowed
  refine ⟨fun r member => (requests r member).trans request, fun h₂ p₂ areas₂ ran₂ nonnull => ?_⟩
  rw [ran, Option.some.injEq] at ran₂
  cases ran₂
  rcases outcome with ⟨-, null, -⟩ | ⟨c, free', rfl, size, ok'⟩
  · exact absurd null nonnull
  · exact ok'.covers (by omega)

/-- Above the bound the call asks for an amount that has wrapped around, or it returns a block
that ends with the address space before the bytes do. -/
theorem HeapOk.not_sound {nbytes : Nat} {answers : Nat → Option Nat}
    (ok : HeapOk base h free live areas) (large : 2 ^ 31 - 16 < nbytes) :
    ¬Sound nbytes answers areas
      (mallocLoop turnLimit (unitsFor nbytes) h h.freep (h.ptr h.freep)) := by
  rintro ⟨requests, covers⟩
  rcases ok.mallocLoop_cases (unitsFor_pos nbytes)
    (by unfold kernbase turnLimit; omega : kernbase < turnLimit) with found | ⟨-, spare, -, asks⟩
  · obtain ⟨h', c, free', returns, -, ok'⟩ := ok.takesUnits_ok (unitsFor_pos nbytes) found
    rw [returns] at covers
    have given : c ∈ free' ++ c :: live := by simp
    have below := ok'.layout.below given
    have behind := ok'.layout.behind given
    have start : ahead c.start 1 = c.start + 8 := by
      unfold Block.stop kernbase at below
      exact Nat.mod_eq_of_lt (by omega)
    obtain ⟨a, member, -, high⟩ := covers h' _ areas rfl (by omega) (nbytes - 1) (by omega)
    have end_ := ok.layout.areas.below a member
    unfold kernbase at end_
    omega
  · rw [AsksForMore] at asks
    rw [asks, morecore_eq, Call.requests] at requests
    have request := requests _ List.mem_cons_self
    have narrow : toInt (coreUnits (unitsFor nbytes) * 8 % 2 ^ 32) < 2 ^ 31 := by
      unfold toInt
      split <;> omega
    unfold requestFor at request
    omega

/-- **`malloc` serves what is asked of it up to `2 ^ 31 - 16` bytes, and no more.**  From every
heap that meets the invariant, whatever the kernel answers, the requests to the kernel are
what they have to be and the result points to the bytes that were asked for exactly when
that many bytes were asked for at most. -/
theorem malloc_sound_iff {nbytes : Nat} {answers : Nat → Option Nat}
    (inv : HeapInv base h free live areas)
    (allowed : (malloc base h nbytes).Allowed base answers areas) :
    Sound nbytes answers areas (malloc base h nbytes) ↔ nbytes ≤ 2 ^ 31 - 16 := by
  have ok := inv.initialized_ok
  constructor
  · intro sound
    by_contra large
    exact ok.not_sound (Nat.lt_of_not_le large) sound
  · intro small
    exact ok.sound small allowed

end HeapOk

/-- A kernel that has no memory left answers -1 to everything. -/
theorem Call.allowed_none (base : Nat) (areas : List Block) (call : Call) :
    call.Allowed base (fun _ => none) areas := by
  induction call with
  | returns h p => trivial
  | asks n resume ih => exact ⟨trivial, ih none⟩
  | spins => trivial

/-- A heap whose only area is one free block. -/
def oneBlock : Heap where
  ptr p := if p = 0x1000 then 0x4000 else 0x1000
  size p := if p = 0x4000 then 4096 else 0
  freep := 0x1000

theorem oneBlock_ok : HeapOk 0x1000 oneBlock [⟨0x4000, 4096⟩] [] [⟨0x4000, 4096⟩] := by
  refine ⟨by decide, ⟨by simp, by simp, List.Perm.refl _, by simp, by simp, ?_⟩, ?_, ?_, ?_⟩
  · simp [Block.stop, kernbase]
  · simp [LinkCircle, oneBlock]
  · simp [oneBlock]
  · simp [oneBlock]

theorem oneBlock_sound :
    Sound 100 (fun _ => none) [⟨0x4000, 4096⟩] (malloc 0x1000 oneBlock 100) :=
  (malloc_sound_iff (.linked oneBlock_ok) (Call.allowed_none _ _ _)).mpr (by decide)

/-- Asked for `0xffffffff` bytes, `malloc` takes one unit off the block and returns the
address where the area ends. -/
theorem oneBlock_short :
    HeapOk 0x1000 oneBlock [⟨0x4000, 4096⟩] [] [⟨0x4000, 4096⟩] ∧
      (∃ h', malloc 0x1000 oneBlock 0xffffffff = .returns h' 0xc000) ∧
      ¬Covers [⟨0x4000, 4096⟩] 0xc000 0xffffffff := by
  refine ⟨oneBlock_ok, ?_, ?_⟩
  · have turns : turnLimit = (2 ^ 33 - 1) + 1 := rfl
    have large : unitsFor 0xffffffff ≤ oneBlock.size (oneBlock.ptr 0x1000) := by decide
    have first := mallocLoop_found (2 ^ 33 - 1) 0x1000 large
    rw [← turns] at first
    exact ⟨_, first⟩
  · intro covers
    obtain ⟨a, member, -, high⟩ := covers 0 (by decide)
    rw [List.mem_singleton.mp member] at high
    exact absurd high (by decide)

end Xv6.Umalloc
