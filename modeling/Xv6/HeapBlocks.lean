import Mathlib.Algebra.GroupWithZero.Nat
import Mathlib.Data.List.Pairwise
import Mathlib.Data.List.Perm.Subperm
import Mathlib.Order.Lattice
import Mathlib.Order.Nat

/-!
# Blocks of the user heap

The allocator of the user library hands out runs of eight-byte units.  A block is such
a run, an area is one that was obtained from the kernel.  The free and the live blocks
are laid out properly when they use up the units of all areas and the free ones are in
address order with a gap behind each.
-/

namespace Xv6.Umalloc

/-- A run of units of the size of a header. -/
structure Block where
  start : Nat
  units : Nat
  deriving DecidableEq, Repr

/-- The first address behind a block. -/
def Block.stop (b : Block) : Nat :=
  b.start + 8 * b.units

/-- The addresses of the units of a block. -/
def Block.cells (b : Block) : List Nat :=
  List.range' b.start b.units 8

/-- The addresses of the units of some blocks. -/
def cells (blocks : List Block) : List Nat :=
  blocks.flatMap Block.cells

/-- Two blocks that do not overlap. -/
def Apart (a b : Block) : Prop :=
  a.stop ≤ b.start ∨ b.stop ≤ a.start

theorem Apart.symm {a b : Block} (apart : Apart a b) : Apart b a :=
  Or.symm apart

instance : Std.Symm Apart :=
  ⟨fun _ _ => Apart.symm⟩

theorem Block.mem_cells {b : Block} {c : Nat} :
    c ∈ b.cells ↔ ∃ i < b.units, c = b.start + 8 * i :=
  List.mem_range'

theorem Block.start_mem_cells {b : Block} (positive : 0 < b.units) : b.start ∈ b.cells :=
  Block.mem_cells.mpr ⟨0, positive, rfl⟩

/-- A block is cut in two. -/
theorem Block.cells_cut (s m n : Nat) :
    (Block.mk s m).cells ++ (Block.mk (s + 8 * m) n).cells = (Block.mk s (m + n)).cells :=
  List.range'_append

@[simp]
theorem cells_nil : cells [] = [] :=
  rfl

@[simp]
theorem cells_cons (b : Block) (blocks : List Block) :
    cells (b :: blocks) = b.cells ++ cells blocks :=
  rfl

@[simp]
theorem cells_append (blocks others : List Block) :
    cells (blocks ++ others) = cells blocks ++ cells others :=
  List.flatMap_append

theorem mem_cells {blocks : List Block} {c : Nat} :
    c ∈ cells blocks ↔ ∃ b ∈ blocks, c ∈ b.cells :=
  List.mem_flatMap

theorem length_cells (blocks : List Block) :
    (cells blocks).length = (blocks.map Block.units).sum := by
  induction blocks with
  | nil => rfl
  | cons b blocks ih =>
      simp [ih, Block.cells]

/-! ## Areas -/

/-- Two units that do not overlap. -/
def Distinct (c d : Nat) : Prop :=
  c + 8 ≤ d ∨ d + 8 ≤ c

theorem Distinct.symm {c d : Nat} (distinct : Distinct c d) : Distinct d c :=
  Or.symm distinct

/-- The units of blocks that lie behind one another do not overlap. -/
theorem cells_distinct {areas : List Block} (ordered : areas.Pairwise fun a b => a.stop ≤ b.start) :
    (cells areas).Pairwise Distinct := by
  refine List.pairwise_flatMap.mpr ⟨fun a _ => ?_, ordered.imp fun {a b} behind => ?_⟩
  · rw [Block.cells, List.pairwise_iff_getElem]
    intro i j inside inside' before
    simp only [List.getElem_range', Distinct]
    omega
  · intro c first d second
    obtain ⟨i, low, rfl⟩ := Block.mem_cells.mp first
    obtain ⟨j, -, rfl⟩ := Block.mem_cells.mp second
    unfold Block.stop at behind
    exact Or.inl (by omega)

/-- Blocks whose units do not overlap do not overlap. -/
theorem apart_of_distinct {a b : Block} (positiveA : 0 < a.units) (positiveB : 0 < b.units)
    (distinct : ∀ c ∈ a.cells, ∀ d ∈ b.cells, Distinct c d) : Apart a b := by
  -- a block that started within another would start within one of its units
  have outside {a b : Block} (positive : 0 < b.units)
      (distinct : ∀ c ∈ a.cells, ∀ d ∈ b.cells, Distinct c d) (later : a.start ≤ b.start) :
      a.stop ≤ b.start := by
    by_contra inside
    unfold Block.stop at inside
    have unit : a.start + 8 * ((b.start - a.start) / 8) ∈ a.cells :=
      Block.mem_cells.mpr ⟨_, by omega, rfl⟩
    rcases distinct _ unit b.start (Block.start_mem_cells positive) with before | behind <;> omega
  rcases Nat.le_total a.start b.start with later | earlier
  · exact Or.inl (outside positiveB distinct later)
  · exact Or.inr (outside positiveA (fun c inB d inA => (distinct d inA c inB).symm) earlier)

/-- Blocks that use up the units of areas behind one another do not overlap. -/
theorem pairwise_apart {blocks areas : List Block}
    (ordered : areas.Pairwise fun a b => a.stop ≤ b.start)
    (perm : (cells blocks).Perm (cells areas)) (positive : ∀ b ∈ blocks, 0 < b.units) :
    blocks.Pairwise Apart := by
  have distinct : (cells blocks).Pairwise Distinct :=
    (perm.pairwise_iff Distinct.symm).mpr (cells_distinct ordered)
  refine (List.pairwise_flatMap.mp distinct).2.imp_of_mem fun {a b} first second units => ?_
  exact apart_of_distinct (positive a first) (positive b second) units

/-! ## Layouts -/

/-- The end of the user part of the address space. -/
def kernbase : Nat := 0x80000000

/-- The list header of the free list: a block without units. -/
def baseBlock (base : Nat) : Block :=
  ⟨base, 0⟩

@[simp]
theorem baseBlock_start (base : Nat) : (baseBlock base).start = base :=
  rfl

@[simp]
theorem baseBlock_units (base : Nat) : (baseBlock base).units = 0 :=
  rfl

@[simp]
theorem baseBlock_stop (base : Nat) : (baseBlock base).stop = base :=
  rfl

/-- The areas lie behind one another, behind the list header and in the user part of
the address space. -/
structure Areas (base : Nat) (areas : List Block) : Prop where
  behind : ∀ a ∈ areas, base + 8 ≤ a.start
  ordered : areas.Pairwise fun a b => a.stop ≤ b.start
  below : ∀ a ∈ areas, a.stop ≤ kernbase

/-- The free and the live blocks use up the areas, and the free ones ascend with a gap
behind each. -/
structure Layout (base : Nat) (free live areas : List Block) : Prop where
  positive : ∀ b ∈ free ++ live, 0 < b.units
  ascending : (baseBlock base :: free).Pairwise fun a b => a.stop < b.start
  perm : (cells (free ++ live)).Perm (cells areas)
  areas : Areas base areas

section Layout

variable {base : Nat} {free live areas : List Block}

theorem Layout.apart (layout : Layout base free live areas) : (free ++ live).Pairwise Apart :=
  pairwise_apart layout.areas.ordered layout.perm layout.positive

/-- Every unit of a block is one of the areas. -/
theorem Layout.inside {b : Block} {c : Nat} (layout : Layout base free live areas)
    (member : b ∈ free ++ live) (unit : c ∈ b.cells) :
    ∃ a ∈ areas, a.start ≤ c ∧ c + 8 ≤ a.stop := by
  have shared := layout.perm.mem_iff.mp (mem_cells.mpr ⟨b, member, unit⟩)
  obtain ⟨a, inAreas, unit⟩ := mem_cells.mp shared
  obtain ⟨i, low, rfl⟩ := Block.mem_cells.mp unit
  exact ⟨a, inAreas, by omega, by unfold Block.stop; omega⟩

theorem Layout.behind {b : Block} (layout : Layout base free live areas)
    (member : b ∈ free ++ live) : base + 8 ≤ b.start := by
  obtain ⟨a, inAreas, low, -⟩ := layout.inside member
    (Block.start_mem_cells (layout.positive b member))
  exact Nat.le_trans (layout.areas.behind a inAreas) low

theorem Layout.below {b : Block} (layout : Layout base free live areas)
    (member : b ∈ free ++ live) : b.stop ≤ kernbase := by
  have positive := layout.positive b member
  have last : b.start + 8 * (b.units - 1) ∈ b.cells :=
    Block.mem_cells.mpr ⟨b.units - 1, by omega, rfl⟩
  obtain ⟨a, inAreas, -, high⟩ := layout.inside member last
  have below := layout.areas.below a inAreas
  unfold Block.stop at *
  omega

/-- No two blocks start at one address. -/
theorem Layout.starts_nodup (layout : Layout base free live areas) :
    ((baseBlock base :: (free ++ live)).map Block.start).Nodup := by
  rw [List.map_cons, List.nodup_cons]
  constructor
  · rw [List.mem_map]
    rintro ⟨b, member, same⟩
    have behind := layout.behind member
    rw [baseBlock_start] at same
    omega
  · refine List.pairwise_map.mpr (layout.apart.imp_of_mem fun {a b} first second apart => ?_)
    have positiveA := layout.positive a first
    have positiveB := layout.positive b second
    unfold Apart Block.stop at apart
    omega

/-- There are no more free blocks than addresses. -/
theorem Layout.length_free (layout : Layout base free live areas) : free.length ≤ kernbase := by
  have nodup : (free.map Block.start).Nodup := by
    have starts := layout.starts_nodup
    rw [List.map_cons, List.map_append] at starts
    exact (List.nodup_append.mp (List.nodup_cons.mp starts).2).1
  have range : free.map Block.start ⊆ List.range kernbase := by
    intro start member
    obtain ⟨b, inFree, rfl⟩ := List.mem_map.mp member
    have positive := layout.positive b (List.mem_append_left live inFree)
    have below := layout.below (List.mem_append_left live inFree)
    unfold Block.stop at below
    exact List.mem_range.mpr (by omega)
  have short := (List.subperm_of_subset nodup range).length_le
  simpa using short

/-! ## Blocks given back -/

/-- A block, joined with the block behind it when the two touch, and the blocks that
stay behind it. -/
def joinedUpper (b : Block) : List Block → Block × List Block
  | [] => (b, [])
  | q :: post => if b.stop = q.start then (⟨b.start, b.units + q.units⟩, post) else (b, q :: post)

/-- Two blocks behind one another, joined when they touch. -/
def joinedLower (t b : Block) : List Block :=
  if t.stop = b.start then [⟨t.start, t.units + b.units⟩] else [t, b]

/-- A block that was joined with the one behind it starts where it did, has not become
smaller and still lies before the blocks that are left behind it; no unit is lost. -/
structure JoinsUpper (b : Block) (post : List Block) (upper : Block) (post' : List Block) :
    Prop where
  start : upper.start = b.start
  grown : b.units ≤ upper.units
  ascending : (upper :: post').Pairwise fun a b => a.stop < b.start
  kept : post' <:+ post
  cells : cells (upper :: post') = cells (b :: post)

theorem joinedUpper_joins {b : Block} {post : List Block}
    (ascending : post.Pairwise fun a b => a.stop < b.start)
    (behind : ∀ q ∈ post, b.stop ≤ q.start) :
    JoinsUpper b post (joinedUpper b post).1 (joinedUpper b post).2 := by
  cases post with
  | nil => exact ⟨rfl, le_rfl, List.pairwise_singleton _ b, List.suffix_refl [], rfl⟩
  | cons q post =>
      obtain ⟨beyond, ascendingPost⟩ := List.pairwise_cons.mp ascending
      by_cases touch : b.stop = q.start
      · rw [joinedUpper, if_pos touch]
        refine ⟨rfl, Nat.le_add_right _ _, ?_, List.suffix_cons q post, ?_⟩
        · refine List.pairwise_cons.mpr ⟨fun r member => ?_, ascendingPost⟩
          have further := beyond r member
          unfold Block.stop at *
          simp only
          omega
        · rw [cells_cons, cells_cons, cells_cons, ← List.append_assoc, ← Block.cells_cut]
          unfold Block.stop at touch
          rw [touch]
      · rw [joinedUpper, if_neg touch]
        refine ⟨rfl, le_rfl, ?_, List.suffix_refl _, rfl⟩
        refine List.pairwise_cons.mpr ⟨fun r member => ?_, ascending⟩
        have next := behind q List.mem_cons_self
        rcases List.mem_cons.mp member with rfl | member
        · exact lt_of_le_of_ne next touch
        · have further := beyond r member
          have room : q.start ≤ q.stop := Nat.le_add_right _ _
          exact lt_of_le_of_lt (next.trans room) further

/-- One of the blocks that come from two reaches as far as the second one did. -/
theorem joinedLower_grown (t b : Block) :
    ∃ c ∈ joinedLower t b, b.units ≤ c.units ∧
      ∀ d ∈ joinedLower t b, d = t ∨ b.units ≤ d.units := by
  unfold joinedLower
  split
  · simp
  · exact ⟨b, by simp, le_rfl, by simp⟩

theorem joinedLower_cells (t b : Block) : cells (joinedLower t b) = t.cells ++ b.cells := by
  unfold joinedLower
  split
  · next touch =>
      unfold Block.stop at touch
      rw [cells_cons, cells_nil, List.append_nil, ← Block.cells_cut, touch]
  · simp

/-- Blocks before and behind the two stay where they are. -/
theorem joinedLower_ascending {front post : List Block} {t b : Block}
    (ascending : (front ++ [t]).Pairwise fun a b => a.stop < b.start)
    (behind : (b :: post).Pairwise fun a b => a.stop < b.start)
    (before : t.stop ≤ b.start) :
    (front ++ (joinedLower t b ++ post)).Pairwise fun a b => a.stop < b.start := by
  obtain ⟨frontAscending, -, below⟩ := List.pairwise_append.mp ascending
  obtain ⟨above, postAscending⟩ := List.pairwise_cons.mp behind
  have reach : ∀ a ∈ front, a.stop < t.start := fun a member => below a member t (by simp)
  have start : t.start ≤ t.stop := Nat.le_add_right _ _
  have stop : b.start ≤ b.stop := Nat.le_add_right _ _
  unfold joinedLower
  split
  · next touch =>
      refine List.pairwise_append.mpr ⟨frontAscending, ?_, fun a inFront c inRest => ?_⟩
      · refine List.pairwise_cons.mpr ⟨fun q member => ?_, postAscending⟩
        have further := above q member
        unfold Block.stop at *
        simp only
        omega
      · have lower := reach a inFront
        rcases List.mem_cons.mp inRest with rfl | inPost
        · exact lower
        · have further := above c inPost
          omega
  · next gap =>
      refine List.pairwise_append.mpr ⟨frontAscending, ?_, fun a inFront c inRest => ?_⟩
      · refine List.pairwise_cons.mpr ⟨fun q member => ?_, behind⟩
        rcases List.mem_cons.mp member with rfl | inPost
        · omega
        · have further := above q inPost
          omega
      · have lower := reach a inFront
        simp only [List.cons_append, List.nil_append, List.mem_cons] at inRest
        rcases inRest with rfl | rfl | inPost
        · exact lower
        · omega
        · have further := above c inPost
          omega

/-- The list header is never joined. -/
theorem joinedLower_base {b : Block} (above : base < b.start) :
    joinedLower (baseBlock base) b = [baseBlock base, b] := by
  rw [joinedLower, baseBlock_stop, if_neg above.ne]

theorem Layout.stop_le {a b : Block} (layout : Layout base free live areas)
    (first : a ∈ baseBlock base :: (free ++ live)) (second : b ∈ free ++ live)
    (before : a.start < b.start) : a.stop ≤ b.start := by
  rcases List.mem_cons.mp first with rfl | first
  · rw [baseBlock_stop]
    exact before.le
  · have apart := layout.apart.forall first second (by rintro rfl; exact lt_irrefl _ before)
    have positive := layout.positive b second
    unfold Apart Block.stop at *
    omega

section Place

variable {b t upper : Block} {front post post' : List Block}

theorem Layout.post_free (layout : Layout base free (b :: live) areas)
    (whole : baseBlock base :: free = front ++ t :: post) (above : ∀ q ∈ post, b.start < q.start) :
    ∀ q ∈ post, q ∈ free := by
  intro q member
  have node : q ∈ baseBlock base :: free := by simp [whole, member]
  refine (List.mem_cons.mp node).resolve_left ?_
  rintro rfl
  have high := above _ member
  have low := layout.behind (b := b) (by simp)
  rw [baseBlock_start] at high
  omega

/-- A live block joined with the one behind its place in the free list. -/
theorem Layout.joinsUpper (layout : Layout base free (b :: live) areas)
    (whole : baseBlock base :: free = front ++ t :: post) (above : ∀ q ∈ post, b.start < q.start) :
    JoinsUpper b post (joinedUpper b post).1 (joinedUpper b post).2 := by
  have ascending := layout.ascending
  rw [whole, List.append_cons] at ascending
  refine joinedUpper_joins (List.pairwise_append.mp ascending).2.1 fun q member => ?_
  have inFree := layout.post_free whole above q member
  exact layout.stop_le (by simp) (List.mem_append_left _ inFree) (above q member)

/-- Giving back a live block at its place in the free list keeps the layout, and leaves
a free block that is at least as large. -/
theorem Layout.join (layout : Layout base free (b :: live) areas)
    (whole : baseBlock base :: free = front ++ t :: post) (below : t.start < b.start)
    (joins : JoinsUpper b post upper post') :
    ∃ free', baseBlock base :: free' = front ++ (joinedLower t upper ++ post') ∧
      Layout base free' live areas ∧ ∃ c ∈ free', b.units ≤ c.units := by
  have given : b ∈ free ++ b :: live := by simp
  have room : 0 < b.units := layout.positive b given
  have grown := joins.grown
  have nodes : ∀ c ∈ front ++ t :: post, c = baseBlock base ∨ c ∈ free := fun c member =>
    List.mem_cons.mp (whole ▸ member)
  have before : t.stop ≤ upper.start := by
    rw [joins.start]
    refine layout.stop_le ?_ given below
    rw [← List.cons_append, whole]
    simp
  obtain ⟨free', list⟩ : ∃ free', baseBlock base :: free' =
      front ++ (joinedLower t upper ++ post') := by
    cases front with
    | nil =>
        obtain ⟨rfl, -⟩ := List.cons.inj whole
        rw [joinedLower_base (joins.start ▸ below)]
        exact ⟨upper :: post', rfl⟩
    | cons h front =>
        obtain ⟨rfl, -⟩ := List.cons.inj whole
        exact ⟨front ++ (joinedLower t upper ++ post'), rfl⟩
  have ascending := layout.ascending
  rw [whole, List.append_cons] at ascending
  have full := joinedLower_ascending (List.pairwise_append.mp ascending).1 joins.ascending before
  rw [← list] at full
  have notBase : ∀ c ∈ free', c ≠ baseBlock base := by
    rintro c member rfl
    exact lt_irrefl _ ((List.pairwise_cons.mp full).1 _ member)
  obtain ⟨c, among, large, others⟩ := joinedLower_grown t upper
  have inside : c ∈ free' := by
    have node : c ∈ baseBlock base :: free' := by simp [list, among]
    refine (List.mem_cons.mp node).resolve_left ?_
    rintro rfl
    rw [baseBlock_units] at large
    omega
  refine ⟨free', list, ⟨fun d member => ?_, full, ?_, layout.areas⟩, c, inside, by omega⟩
  · rcases List.mem_append.mp member with inFree | inLive
    · have old : d ∈ front ++ t :: post → 0 < d.units := fun inOld =>
        layout.positive d (List.mem_append_left _ ((nodes d inOld).resolve_left (notBase d inFree)))
      have node : d ∈ baseBlock base :: free' := List.mem_cons_of_mem _ inFree
      rw [list, List.mem_append, List.mem_append] at node
      rcases node with inFront | inMiddle | inRest
      · exact old (List.mem_append_left _ inFront)
      · rcases others d inMiddle with rfl | large
        · exact old (by simp)
        · omega
      · exact old (by simp [joins.kept.subset inRest])
    · exact layout.positive d (by simp [inLive])
  · have freed : cells free' = cells front ++ (t.cells ++ (b.cells ++ cells post)) := by
      have whole' := congrArg cells list
      rw [cells_append, cells_append, joinedLower_cells, List.append_assoc, ← cells_cons,
        joins.cells, cells_cons] at whole'
      exact whole'
    have old : cells free = cells front ++ (t.cells ++ cells post) := by
      have whole' := congrArg cells whole
      rw [cells_append, cells_cons] at whole'
      exact whole'
    refine List.Perm.trans ?_ layout.perm
    rw [cells_append, cells_append, cells_cons, freed, old]
    simp only [List.append_assoc]
    refine List.Perm.append_left _ (List.Perm.append_left _ ?_)
    rw [← List.append_assoc, ← List.append_assoc]
    exact List.perm_append_comm.append_right _

end Place

/-! ## Blocks handed out -/

/-- What is left of a free block when its last units are handed out. -/
def remainder (b : Block) (n : Nat) : List Block :=
  if b.units = n then [] else [⟨b.start, b.units - n⟩]

/-- The units that are handed out. -/
def taken (b : Block) (n : Nat) : Block :=
  ⟨b.start + 8 * (b.units - n), n⟩

theorem remainder_cells {b : Block} {n : Nat} (fits : n ≤ b.units) :
    cells (remainder b n) ++ (taken b n).cells = b.cells := by
  unfold remainder taken
  split
  · next exact => simp [← exact]
  · rw [cells_cons, cells_nil, List.append_nil, Block.cells_cut, Nat.sub_add_cancel fits]

theorem mem_remainder {b c : Block} {n : Nat} (fits : n ≤ b.units) (member : c ∈ remainder b n) :
    c.start = b.start ∧ c.stop ≤ b.stop ∧ 0 < c.units := by
  unfold remainder at member
  split at member
  · simp at member
  · next differ =>
      rw [List.mem_singleton] at member
      subst member
      refine ⟨rfl, ?_, ?_⟩
      · simp only [Block.stop]
        omega
      · simp only
        omega

/-- Handing out the end of a free block keeps the layout. -/
theorem Layout.take {b t : Block} {front post : List Block} {n : Nat}
    (layout : Layout base free live areas)
    (whole : baseBlock base :: free = front ++ t :: b :: post) (positive : 0 < n)
    (fits : n ≤ b.units) :
    ∃ free', baseBlock base :: free' = front ++ t :: (remainder b n ++ post) ∧
      Layout base free' (taken b n :: live) areas := by
  obtain ⟨free', list⟩ : ∃ free', baseBlock base :: free' =
      front ++ t :: (remainder b n ++ post) := by
    cases front with
    | nil =>
        obtain ⟨rfl, -⟩ := List.cons.inj whole
        exact ⟨remainder b n ++ post, rfl⟩
    | cons h front =>
        obtain ⟨rfl, -⟩ := List.cons.inj whole
        exact ⟨front ++ t :: (remainder b n ++ post), rfl⟩
  have nodes : ∀ c ∈ front ++ t :: b :: post, c = baseBlock base ∨ c ∈ free := fun c member =>
    List.mem_cons.mp (whole ▸ member)
  have full : (baseBlock base :: free').Pairwise fun a b => a.stop < b.start := by
    have ascending := layout.ascending
    rw [whole, List.append_cons] at ascending
    obtain ⟨upTo, behind, across⟩ := List.pairwise_append.mp ascending
    obtain ⟨above, postAscending⟩ := List.pairwise_cons.mp behind
    rw [list, List.append_cons]
    refine List.pairwise_append.mpr ⟨upTo, List.pairwise_append.mpr
      ⟨?_, postAscending, fun c first q second => ?_⟩, fun a first c second => ?_⟩
    · unfold remainder
      split <;> simp
    · exact lt_of_le_of_lt (mem_remainder fits first).2.1 (above q second)
    · rcases List.mem_append.mp second with inRemainder | inPost
      · rw [(mem_remainder fits inRemainder).1]
        exact across a first b List.mem_cons_self
      · exact across a first c (List.mem_cons_of_mem b inPost)
  have notBase : ∀ c ∈ free', c ≠ baseBlock base := by
    rintro c member rfl
    exact lt_irrefl _ ((List.pairwise_cons.mp full).1 _ member)
  refine ⟨free', list, ⟨fun d member => ?_, full, ?_, layout.areas⟩⟩
  · rcases List.mem_append.mp member with inFree | inLive
    · have old : d ∈ front ++ t :: b :: post → 0 < d.units := fun inOld =>
        layout.positive d (List.mem_append_left _ ((nodes d inOld).resolve_left (notBase d inFree)))
      have node : d ∈ baseBlock base :: free' := List.mem_cons_of_mem _ inFree
      rw [list, List.mem_append, List.mem_cons, List.mem_append] at node
      rcases node with inFront | rfl | inRemainder | inPost
      · exact old (List.mem_append_left _ inFront)
      · exact old (by simp)
      · exact (mem_remainder fits inRemainder).2.2
      · exact old (by simp [inPost])
    · rcases List.mem_cons.mp inLive with rfl | inLive
      · exact positive
      · exact layout.positive d (List.mem_append_right _ inLive)
  · have left : cells free' =
        cells front ++ (t.cells ++ (cells (remainder b n) ++ cells post)) := by
      have whole' := congrArg cells list
      rw [cells_append, cells_cons t, cells_append] at whole'
      exact whole'
    have old : cells free =
        cells front ++ (t.cells ++ (cells (remainder b n) ++ (taken b n).cells ++ cells post)) := by
      have whole' := congrArg cells whole
      rw [cells_append, cells_cons t, cells_cons b, ← remainder_cells fits] at whole'
      exact whole'
    refine List.Perm.trans ?_ layout.perm
    rw [cells_append, cells_append, cells_cons, left, old]
    simp only [List.append_assoc]
    refine ((List.Perm.append_left _ ?_).append_left _).append_left _
    rw [← List.append_assoc, ← List.append_assoc]
    exact List.perm_append_comm.append_right _

/-- A new area is first of all a live block. -/
theorem Layout.extend {a : Block} (layout : Layout base free live areas) (positive : 0 < a.units)
    (behind : ∀ c ∈ ⟨base, 1⟩ :: areas, c.stop ≤ a.start) (below : a.stop ≤ kernbase) :
    Layout base free (a :: live) (areas ++ [a]) := by
  refine ⟨fun b member => ?_, layout.ascending, ?_, ⟨fun b member => ?_, ?_, fun b member => ?_⟩⟩
  · rw [List.mem_append, List.mem_cons] at member
    rcases member with inFree | rfl | inLive
    · exact layout.positive b (List.mem_append_left _ inFree)
    · exact positive
    · exact layout.positive b (List.mem_append_right _ inLive)
  · rw [cells_append, cells_append, cells_cons, cells_cons, cells_nil, List.append_nil]
    have swap : (cells free ++ (a.cells ++ cells live)).Perm (cells (free ++ live) ++ a.cells) := by
      rw [cells_append, List.append_assoc]
      exact List.perm_append_comm.append_left _
    exact swap.trans (layout.perm.append_right _)
  · rcases List.mem_append.mp member with old | new
    · exact layout.areas.behind b old
    · rw [List.mem_singleton.mp new]
      exact behind ⟨base, 1⟩ List.mem_cons_self
  · refine List.pairwise_append.mpr ⟨layout.areas.ordered, List.pairwise_singleton _ a, ?_⟩
    intro b old c new
    rw [List.mem_singleton.mp new]
    exact behind b (List.mem_cons_of_mem _ old)
  · rcases List.mem_append.mp member with old | new
    · exact layout.areas.below b old
    · rw [List.mem_singleton.mp new]
      exact below

/-- The order of the live blocks does not matter. -/
theorem Layout.perm_live {live' : List Block} (layout : Layout base free live areas)
    (same : live.Perm live') : Layout base free live' areas := by
  have both := same.append_left free
  refine ⟨fun b member => layout.positive b (both.mem_iff.mpr member), layout.ascending, ?_,
    layout.areas⟩
  exact (both.flatMap_right Block.cells).symm.trans layout.perm

end Layout

end Xv6.Umalloc
