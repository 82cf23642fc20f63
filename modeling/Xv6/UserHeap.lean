import Mathlib.Algebra.Group.Int.Defs
import Xv6.CircularLists
import Xv6.HeapBlocks

/-!
# The allocator of the user library

`malloc` and `free` of umalloc.c keep the free blocks in a circular list that starts at
`base`, a header without units, and continue every search where the last one ended.  A
call of `malloc` may have to ask the kernel for memory, so its model is a computation that
is resumed with the answer of `sbrk`.  Below, the heap is tied to the lists of its free
and live blocks, and `free` is shown to keep the tie.
-/

namespace Xv6.Umalloc

open CircularLists

/-- The fields of the headers in memory, by the address of the header, and `freep`. -/
structure Heap where
  ptr : Nat → Nat
  size : Nat → Nat
  freep : Nat

/-- Write `p->s.ptr`. -/
def Heap.setPtr (h : Heap) (p q : Nat) : Heap :=
  { h with ptr := Function.update h.ptr p q }

/-- Write `p->s.size`. -/
def Heap.setSize (h : Heap) (p : Nat) (n : Nat) : Heap :=
  { h with size := Function.update h.size p n }

/-- Pointer arithmetic on headers: `p + n`. -/
def ahead (p : Nat) (n : Nat) : Nat :=
  (p + 8 * n) % 2 ^ 32

/-- The header in front of a pointer that `malloc` returned: `(Header*)ap - 1`. -/
def header (ap : Nat) : Nat :=
  (ap + (2 ^ 32 - 8)) % 2 ^ 32

/-- A loop that takes as many turns never ends: every search takes less than one turn
for each address of the user part of the address space. -/
def turnLimit : Nat :=
  2 ^ 33

/-- `free` joins the block with the one behind it, when they touch. -/
def joinUpper (h : Heap) (bp p : Nat) : Heap :=
  if ahead bp (h.size bp) = h.ptr p then
    let h := h.setSize bp ((h.size bp + h.size (h.ptr p)) % 2 ^ 32)
    h.setPtr bp (h.ptr (h.ptr p))
  else
    h.setPtr bp (h.ptr p)

/-- `free` joins the block with the one before it, when they touch. -/
def joinLower (h : Heap) (bp p : Nat) : Heap :=
  if ahead p (h.size p) = bp then
    let h := h.setSize p ((h.size p + h.size bp) % 2 ^ 32)
    h.setPtr p (h.ptr bp)
  else
    h.setPtr p bp

/-- `free`; the search starts at `freep` and ends at a place for the block.  There is no
result when it does not end. -/
def free (h : Heap) (ap : Nat) : Option Heap :=
  let bp := header ap
  (follow h.ptr (IsPlace h.ptr bp) turnLimit h.freep).map fun p =>
    { joinLower (joinUpper h bp p) bp p with freep := p }

/-- A call of `malloc`: it returns the heap and its result, or calls `sbrk` and goes on with
the answer, which is `none` for -1, or is still searching at the limit. -/
inductive Call
  | returns (h : Heap) (p : Nat)
  | asks (n : Int) (resume : Option Nat → Call)
  | spins

/-- An unsigned word as the `int` parameter of `sbrk`. -/
def toInt (w : Nat) : Int :=
  if w < 2 ^ 31 then w else (w : Int) - 2 ^ 32

/-- The end of `morecore`, and what `malloc` does with its result. -/
def coreFreed (resume : Heap → Nat → Call) : Option Heap → Call
  | none => .spins
  | some h => resume h h.freep

/-- `morecore` with the answer of `sbrk`. -/
def coreAnswered (h : Heap) (nu : Nat) (resume : Heap → Nat → Call) : Option Nat → Call
  | none => resume h 0
  | some hp => coreFreed resume (free (h.setSize hp nu) (ahead hp 1))

/-- `morecore` up to its call of `sbrk`. -/
def morecore (h : Heap) (nu : Nat) (resume : Heap → Nat → Call) : Call :=
  let nu := if nu < 4096 then 4096 else nu
  .asks (toInt (nu * 8 % 2 ^ 32)) (coreAnswered h nu resume)

/-- Take `nunits` units off the block `p` behind `prevp`. -/
def takeUnits (h : Heap) (nunits : Nat) (prevp p : Nat) : Heap × Nat :=
  if h.size p = nunits then
    (h.setPtr prevp (h.ptr p), p)
  else
    let h := h.setSize p (h.size p - nunits)
    let p := ahead p (h.size p)
    (h.setSize p nunits, p)

/-- The loop of `malloc`. -/
def mallocLoop : Nat → Nat → Heap → Nat → Nat → Call
  | 0, _, _, _, _ => .spins
  | turns + 1, nunits, h, prevp, p =>
      if nunits ≤ h.size p then
        let (h, p) := takeUnits h nunits prevp p
        .returns { h with freep := prevp } (ahead p 1)
      else if p = h.freep then
        morecore h nunits fun h p =>
          if p = 0 then .returns h 0 else mallocLoop turns nunits h p (h.ptr p)
      else mallocLoop turns nunits h p (h.ptr p)

/-- The units `malloc` looks for. -/
def unitsFor (nbytes : Nat) : Nat :=
  (nbytes + 8 - 1) % 2 ^ 32 / 8 + 1

/-- The first call of `malloc` sets up the list. -/
def initialized (base : Nat) (h : Heap) : Heap :=
  if h.freep = 0 then { (h.setPtr base base).setSize base 0 with freep := base } else h

/-- `malloc`. -/
def malloc (base : Nat) (h : Heap) (nbytes : Nat) : Call :=
  let h := initialized base h
  mallocLoop turnLimit (unitsFor nbytes) h h.freep (h.ptr h.freep)

@[simp]
theorem Heap.setPtr_ptr (h : Heap) (p q : Nat) : (h.setPtr p q).ptr = Function.update h.ptr p q :=
  rfl

@[simp]
theorem Heap.setPtr_size (h : Heap) (p q : Nat) : (h.setPtr p q).size = h.size :=
  rfl

@[simp]
theorem Heap.setSize_ptr (h : Heap) (p : Nat) (n : Nat) : (h.setSize p n).ptr = h.ptr :=
  rfl

@[simp]
theorem Heap.setSize_size (h : Heap) (p : Nat) (n : Nat) :
    (h.setSize p n).size = Function.update h.size p n :=
  rfl

/-! ## The heap and its blocks -/

/-- The list of the free blocks is linked in memory, `freep` points into it, and the
headers hold the sizes of the blocks. -/
structure Holds (base : Nat) (h : Heap) (free live : List Block) : Prop where
  circle : LinkCircle h.ptr base (free.map Block.start)
  freep : h.freep ∈ base :: free.map Block.start
  size : ∀ b ∈ baseBlock base :: (free ++ live), h.size b.start = b.units

/-- The invariant of the heap: the blocks are laid out properly and memory holds them. -/
structure HeapOk (base : Nat) (h : Heap) (free live areas : List Block) : Prop where
  nonnull : 0 < base
  layout : Layout base free live areas
  holds : Holds base h free live

section HeapOk

variable {base : Nat} {h : Heap} {free live areas : List Block} {b t : Block}
  {front post : List Block}

/-- Where a block ends, no address wraps around. -/
theorem ahead_units (below : b.stop ≤ kernbase) : ahead b.start b.units = b.stop := by
  unfold Block.stop kernbase at *
  exact Nat.mod_eq_of_lt (by omega)

theorem header_ahead (below : b.stop ≤ kernbase) : header (ahead b.start 1) = b.start := by
  unfold Block.stop kernbase header ahead at *
  omega

theorem starts_ascending (layout : Layout base free live areas) :
    (base :: free.map Block.start).Pairwise (· < ·) := by
  rw [← baseBlock_start base, ← List.map_cons]
  refine List.pairwise_map.mpr (layout.ascending.imp fun {a c} behind => ?_)
  exact lt_of_le_of_lt (Nat.le_add_right _ _) behind

/-- The search of `free` ends at the last free block below the one given back. -/
theorem HeapOk.place (ok : HeapOk base h free (b :: live) areas) :
    ∃ front t post, baseBlock base :: free = front ++ t :: post ∧ t.start < b.start ∧
      (∀ q ∈ post, b.start < q.start) ∧
      follow h.ptr (IsPlace h.ptr b.start) turnLimit h.freep = some t.start := by
  have given : b ∈ free ++ b :: live := by simp
  have above : base < b.start := by
    have behind := ok.layout.behind given
    omega
  have new : b.start ∉ free.map Block.start := by
    have nodup := ok.layout.starts_nodup
    rw [List.map_cons, List.map_append, List.map_cons] at nodup
    intro member
    exact (List.nodup_append.mp (List.nodup_cons.mp nodup).2).2.2 _ member _
      List.mem_cons_self rfl
  have ascending := starts_ascending ok.layout
  obtain ⟨front, t, post, whole, below, beyond⟩ := exists_place ascending above new
  have found : follow h.ptr (IsPlace h.ptr b.start) turnLimit h.freep = some t := by
    refine ok.holds.circle.follow_eq (ascending.imp fun less => less.ne) ok.holds.freep ?_
      (fun p member => ok.holds.circle.isPlace_iff ascending whole below beyond above member) ?_
    · rw [whole]
      simp
    · have short := ok.layout.length_free
      rw [List.length_map]
      unfold turnLimit kernbase at *
      omega
  rw [← baseBlock_start base, ← List.map_cons] at whole
  obtain ⟨front, rest, blocks, rfl, starts⟩ := List.map_eq_append_iff.mp whole
  obtain ⟨t, post, rfl, rfl, rfl⟩ := List.map_eq_cons_iff.mp starts
  refine ⟨front, t, post, blocks, below, fun q member => ?_, found⟩
  exact beyond q.start (List.mem_map_of_mem member)

/-- A node of the list leads to the start of the next free block, or to `base`. -/
theorem HeapOk.ptr_eq (ok : HeapOk base h free live areas)
    (whole : baseBlock base :: free = front ++ t :: post) :
    h.ptr t.start = (post.map Block.start).headD base := by
  have starts : base :: free.map Block.start =
      front.map Block.start ++ t.start :: post.map Block.start := by
    rw [← baseBlock_start base, ← List.map_cons, whole, List.map_append, List.map_cons]
  exact ok.holds.circle.next_eq starts

/-- Joining with the block behind. -/
theorem HeapOk.joinUpper_eq (ok : HeapOk base h free (b :: live) areas)
    (whole : baseBlock base :: free = front ++ t :: post) (above : ∀ q ∈ post, b.start < q.start) :
    joinUpper h b.start t.start =
      (h.setSize b.start (joinedUpper b post).1.units).setPtr b.start
        (((joinedUpper b post).2.map Block.start).headD base) := by
  have given : b ∈ free ++ b :: live := by simp
  have size : h.size b.start = b.units := ok.holds.size b (List.mem_cons_of_mem _ given)
  have same : h.setSize b.start b.units = h := by
    rw [← size, Heap.setSize, Function.update_eq_self]
  unfold joinUpper
  rw [ok.ptr_eq whole, size, ahead_units (ok.layout.below given)]
  cases post with
  | nil =>
      have behind := ok.layout.behind given
      have beyond : ¬b.stop = base := by
        unfold Block.stop
        omega
      rw [List.map_nil, List.headD_nil, if_neg beyond, joinedUpper, same]
      rfl
  | cons q post =>
      have inFree := ok.layout.post_free whole above q List.mem_cons_self
      have member : q ∈ free ++ b :: live := List.mem_append_left _ inFree
      have sizeQ : h.size q.start = q.units := ok.holds.size q (List.mem_cons_of_mem _ member)
      rw [List.map_cons, List.headD_cons]
      by_cases touch : b.stop = q.start
      · have next : h.ptr q.start = (post.map Block.start).headD base :=
          ok.ptr_eq (whole.trans (List.append_cons front t (q :: post)))
        have below := ok.layout.below member
        have small : b.units + q.units < 2 ^ 32 := by
          unfold Block.stop kernbase at *
          omega
        rw [if_pos touch, joinedUpper, if_pos touch, sizeQ, Nat.mod_eq_of_lt small]
        simp only [Heap.setSize_ptr, ok.ptr_eq whole, List.map_cons, List.headD_cons, next]
      · simp only [if_neg touch, joinedUpper, same]
        rfl

/-- Joining with the block before. -/
theorem joinLower_eq {bp : Nat} {upper : Block} (sizeT : h.size t.start = t.units)
    (sizeB : h.size bp = upper.units) (start : upper.start = bp) (before : t.stop ≤ bp)
    (below : upper.stop ≤ kernbase) :
    joinLower h bp t.start =
      if t.stop = bp then (h.setSize t.start (t.units + upper.units)).setPtr t.start (h.ptr bp)
      else h.setPtr t.start bp := by
  have first : t.stop ≤ kernbase := by
    unfold Block.stop at below
    omega
  have small : t.units + upper.units < 2 ^ 32 := by
    unfold Block.stop kernbase at *
    omega
  rw [joinLower, sizeT, ahead_units first, sizeB, Nat.mod_eq_of_lt small]
  rfl

/-- A changed part of the list: the links and sizes of the blocks around it are as before,
and those within it are right. -/
theorem Holds.splice {h' : Heap} {skip here free' live' : List Block} {mid : List Nat}
    (holds : Holds base h free live) (whole : baseBlock base :: free = front ++ t :: (skip ++ post))
    (whole' : baseBlock base :: free' = front ++ (here ++ post))
    (starts : here.map Block.start = t.start :: mid)
    (same : ∀ c ∈ front ++ post, h'.ptr c.start = h.ptr c.start)
    (middle : LinkPath h'.ptr t.start mid ((post.map Block.start).headD base))
    (freep : h'.freep = t.start)
    (sizeHere : ∀ c ∈ here, h'.size c.start = c.units)
    (size : ∀ c ∈ front ++ (post ++ live'), h'.size c.start = c.units) :
    Holds base h' free' live' := by
  have before : base :: free.map Block.start = front.map Block.start ++
      t.start :: (skip.map Block.start ++ post.map Block.start) := by
    rw [← baseBlock_start base, ← List.map_cons, whole]
    simp
  have after : base :: free'.map Block.start = front.map Block.start ++
      t.start :: (mid ++ post.map Block.start) := by
    rw [← baseBlock_start base, ← List.map_cons, whole']
    simp [starts]
  refine ⟨holds.circle.splice before after (fun p member => ?_) middle, ?_, fun c member => ?_⟩
  · rw [← List.map_append] at member
    obtain ⟨c, inside, rfl⟩ := List.mem_map.mp member
    exact same c inside
  · rw [freep, after]
    simp
  · rw [← List.cons_append, whole'] at member
    simp only [List.mem_append] at member size
    rcases member with (inFront | inHere | inPost) | inLive
    · exact size c (Or.inl inFront)
    · exact sizeHere c inHere
    · exact size c (Or.inr (Or.inl inPost))
    · exact size c (Or.inr (Or.inr inLive))

/-- Where the joined blocks end. -/
theorem Layout.joined_below {upper : Block} {post' free' : List Block}
    (layout : Layout base free' live areas) (positive : 0 < upper.units)
    (list : baseBlock base :: free' = front ++ (joinedLower t upper ++ post')) :
    upper.stop ≤ kernbase := by
  have member : ∀ c ∈ joinedLower t upper, 0 < c.units → c.stop ≤ kernbase := by
    intro c inside room
    have node : c ∈ baseBlock base :: free' := by simp [list, inside]
    refine layout.below (List.mem_append_left live ((List.mem_cons.mp node).resolve_left ?_))
    rintro rfl
    simp at room
  by_cases touch : t.stop = upper.start
  · rw [joinedLower, if_pos touch] at member
    have below := member _ (List.mem_singleton_self _) (Nat.add_pos_right _ positive)
    unfold Block.stop at *
    simp only at below
    omega
  · rw [joinedLower, if_neg touch] at member
    exact member upper (by simp) positive

/-- The blocks around the joined ones start elsewhere. -/
theorem HeapOk.elsewhere (ok : HeapOk base h free (b :: live) areas)
    (whole : baseBlock base :: free = front ++ t :: post) (below : t.start < b.start)
    (above : ∀ q ∈ post, b.start < q.start) :
    ∀ c ∈ front ++ (post ++ live), c.start ≠ t.start ∧ c.start ≠ b.start := by
  intro c member
  have ascending := ok.layout.ascending
  rw [whole] at ascending
  have nodup := ok.layout.starts_nodup
  rw [← List.cons_append, whole, List.append_assoc, List.map_append, List.map_append] at nodup
  rw [List.mem_append, List.mem_append] at member
  rcases member with inFront | inPost | inLive
  · have before := (List.pairwise_append.mp ascending).2.2 c inFront t List.mem_cons_self
    have room : c.start ≤ c.stop := Nat.le_add_right _ _
    omega
  · have high := above c inPost
    omega
  · have behind := (List.nodup_append.mp nodup).2.1
    rw [List.map_cons] at behind
    obtain ⟨-, others, differ⟩ := List.nodup_append.mp behind
    rw [List.map_cons, List.nodup_cons] at others
    have own := List.mem_map_of_mem (f := Block.start) inLive
    refine ⟨fun same => ?_, fun same => others.1 (same ▸ own)⟩
    exact differ t.start List.mem_cons_self c.start (List.mem_cons_of_mem _ own) same.symm

/-- The heap that `free` leaves holds the joined blocks. -/
theorem HeapOk.holds_join {upper : Block} {post' free' : List Block}
    (ok : HeapOk base h free (b :: live) areas)
    (whole : baseBlock base :: free = front ++ t :: post) (below : t.start < b.start)
    (above : ∀ q ∈ post, b.start < q.start) (joins : JoinsUpper b post upper post')
    (list : baseBlock base :: free' = front ++ (joinedLower t upper ++ post'))
    (layout : Layout base free' live areas) :
    Holds base { joinLower ((h.setSize b.start upper.units).setPtr b.start
      ((post'.map Block.start).headD base)) b.start t.start with freep := t.start } free' live := by
  have given : b ∈ free ++ b :: live := by simp
  have node : t ∈ baseBlock base :: free := by simp [whole]
  have positive : 0 < upper.units := lt_of_lt_of_le (ok.layout.positive b given) joins.grown
  have before : t.stop ≤ b.start :=
    ok.layout.stop_le (List.mem_append_left (b :: live) node) given below
  have sizeT : h.size t.start = t.units :=
    ok.holds.size t (List.mem_append_left (b :: live) node)
  have elsewhere := ok.elsewhere whole below above
  obtain ⟨skip, rfl⟩ := joins.kept
  have around : ∀ c ∈ front ++ (post' ++ live), c.start ≠ t.start ∧ c.start ≠ b.start :=
    fun c member => elsewhere c (by simp only [List.mem_append] at member ⊢; tauto)
  have size : ∀ c ∈ front ++ (post' ++ live), h.size c.start = c.units := by
    intro c member
    refine ok.holds.size c ?_
    rw [← List.cons_append, whole]
    simp only [List.mem_append, List.mem_cons] at member ⊢
    tauto
  have sizeT' : ((h.setSize b.start upper.units).setPtr b.start
      ((post'.map Block.start).headD base)).size t.start = t.units := by
    simp [Function.update_of_ne below.ne, sizeT]
  rw [joinLower_eq sizeT' (by simp) joins.start before (layout.joined_below positive list)]
  by_cases touch : t.stop = b.start
  · rw [joinedLower, joins.start, if_pos touch] at list
    rw [if_pos touch]
    refine ok.holds.splice whole list rfl (fun c member => ?_) ?_ rfl ?_ fun c member => ?_
    · obtain ⟨notT, notB⟩ := around c (by simp only [List.mem_append] at member ⊢; tauto)
      simp [Function.update_of_ne notT, Function.update_of_ne notB]
    · simp
    · simp
    · obtain ⟨notT, notB⟩ := around c member
      simp [Function.update_of_ne notT, Function.update_of_ne notB, size c member]
  · rw [joinedLower, joins.start, if_neg touch] at list
    rw [if_neg touch]
    have starts : [t, upper].map Block.start = [t.start, b.start] := by simp [joins.start]
    refine ok.holds.splice whole list starts (fun c member => ?_) ?_ rfl ?_ fun c member => ?_
    · obtain ⟨notT, notB⟩ := around c (by simp only [List.mem_append] at member ⊢; tauto)
      simp [Function.update_of_ne notT, Function.update_of_ne notB]
    · simp [Function.update_of_ne below.ne']
    · simp [joins.start, Function.update_of_ne below.ne, sizeT]
    · obtain ⟨notT, notB⟩ := around c member
      simp [Function.update_of_ne notB, size c member]

/-- `free` of a live block returns, keeps the invariant and leaves a free block that is at
least as large. -/
theorem HeapOk.free_ok (ok : HeapOk base h free (b :: live) areas) :
    ∃ h' free', Umalloc.free h (ahead b.start 1) = some h' ∧ HeapOk base h' free' live areas ∧
      ∃ c ∈ free', b.units ≤ c.units := by
  have given : b ∈ free ++ b :: live := by simp
  obtain ⟨front, t, post, whole, below, above, found⟩ := ok.place
  have joins := ok.layout.joinsUpper whole above
  obtain ⟨free', list, layout, large⟩ := ok.layout.join whole below joins
  refine ⟨_, free', ?_,
    ⟨ok.nonnull, layout, ok.holds_join whole below above joins list layout⟩, large⟩
  rw [Umalloc.free, header_ahead (ok.layout.below given), found, Option.map_some,
    ok.joinUpper_eq whole above]

end HeapOk

end Xv6.Umalloc
